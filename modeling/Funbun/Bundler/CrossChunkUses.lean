import Funbun.Bundler.CrossChunk

/-! What a chunk uses and declares, and that the walks come by it.

`Uses` and `DeclaredIn` say it from the parts and the entry point of a chunk. Each piece of a walk adds some declarations and
uses and does no more (`Adds`). -/
namespace Funbun.Bundler.CrossChunk
open Library

/-! ### What a chunk uses and declares -/

section Spec
variable (l : Linker)

/-- A live part of a file in a JavaScript chunk. -/
def LivePart (C : Nat) (file : SourceIndex) (part : Part) : Prop :=
  ∃ chunk : Chunk, l.chunks[C]? = some chunk ∧ chunk.content = .javascript ∧
    file ∈ chunk.filesWithPartsInChunk ∧
      ∃ k : Nat, (l.parts file)[k]? = some part ∧ l.partsLive file k = true

/-- The top-level symbol is declared by a live part of the chunk. -/
def DeclaredIn (ref : Ref) (C : Nat) : Prop :=
  ∃ file part, LivePart l C file part ∧ ∃ d ∈ part.declaredSymbols, d.ref = ref ∧ d.isTopLevel = true

/-- The symbol a reference in a file stands for: imports lead to the symbol in the other
file, and one with a namespace alias to the namespace. -/
def followed (file : SourceIndex) (ref : Ref) : Ref :=
  throughNamespaceAlias l ((l.importsToBind file ref).getD ref)

def EntryPointOf (C : Nat) (file : SourceIndex) : Prop :=
  ∃ chunk : Chunk, l.chunks[C]? = some chunk ∧ chunk.content = .javascript ∧
    chunk.entryPoint.isEntryPoint = true ∧ chunk.entryPoint.sourceIndex = file

/-- The symbols a chunk uses: those its live parts use, unless they are unbound or
printed as undefined, and those its entry point exports. A CommonJS entry point exports
its wrapper only. -/
inductive Uses (C : Nat) : Ref → Prop
  | part {file : SourceIndex} {part : Part} {ref : Ref} (live : LivePart l C file part)
      (use : ref ∈ part.symbolUses) (bound : (l.symbols ref).isUnbound = false)
      (present : (l.symbols ref).importItemStatus ≠ .missing) : Uses C (followed l file ref)
  | exported {file : SourceIndex} {name : Name} {target : ExportData} (entry : EntryPointOf l C file)
      (wrap : (l.flags file).wrap ≠ .cjs) (alias_mem : name ∈ l.sortedAndFilteredExportAliases file)
      (resolved : l.resolvedExports file name = some target) :
      Uses C (followed l target.sourceIndex target.importRef)
  | exportsObject {file : SourceIndex} (entry : EntryPointOf l C file)
      (force : (l.flags file).forceIncludeExportsForEntryPoint = true) : Uses C (l.exportsRefs file)
  | wrapper {file : SourceIndex} (entry : EntryPointOf l C file) (wrap : (l.flags file).wrap ≠ .none) :
      Uses C (l.wrapperRefs file)

variable {l}

variable {C : Nat} {file : SourceIndex} {part : Part} {ref : Ref}

theorem LivePart.javascript (h : LivePart l C file part) :
    isJavaScript l C = true := by
  obtain ⟨chunk, hchunk, hjs, -⟩ := h
  simp [isJavaScript, hchunk, hjs]

theorem Uses.javascript (h : Uses l C ref) :
    ∃ chunk, l.chunks[C]? = some chunk ∧ chunk.content = .javascript := by
  cases h with
  | part live =>
    obtain ⟨chunk, hchunk, hjs, -⟩ := live
    exact ⟨chunk, hchunk, hjs⟩
  | exported entry | exportsObject entry | wrapper entry =>
    obtain ⟨chunk, hchunk, hjs, -⟩ := entry
    exact ⟨chunk, hchunk, hjs⟩

theorem DeclaredIn.javascript (h : DeclaredIn l ref C) : isJavaScript l C = true := by
  obtain ⟨file, part, live, -⟩ := h
  exact live.javascript

theorem mem_liveParts :
    part ∈ liveParts l file ↔ ∃ k : Nat, (l.parts file)[k]? = some part ∧ l.partsLive file k = true := by
  simp only [liveParts, List.mem_filterMap, Prod.exists, List.mem_zipIdx_iff_getElem?,
    Option.ite_none_right_eq_some, Option.some.injEq]
  constructor
  · intro h
    obtain ⟨p, k, hk, hlive, rfl⟩ := h
    exact ⟨k, hk, hlive⟩
  · intro h
    obtain ⟨k, hk, hlive⟩ := h
    exact ⟨part, k, hk, hlive, rfl⟩

/-- A file is in one chunk only, so its symbols are declared in one. -/
theorem LivePart.chunk_eq (hsplit : l.codeSplitting = true) {C D : Nat} {p q : Part}
    (hC : LivePart l C file p) (hD : LivePart l D file q) : C = D := by
  obtain ⟨c, hc, hcjs, hcfile, -⟩ := hC
  obtain ⟨d, hd, hdjs, hdfile, -⟩ := hD
  exact l.file_chunk hsplit C D c d hc hd hcjs hdjs file hcfile hdfile

theorem LivePart.declares_own (h : LivePart l C file part)
    {d : DeclaredSymbol} (hd : d ∈ part.declaredSymbols) : d.ref.sourceIndex = file := by
  obtain ⟨_, -, -, -, k, hk, -⟩ := h
  exact l.declared_own file part (List.mem_of_getElem? hk) d hd

theorem DeclaredIn.unique (hsplit : l.codeSplitting = true) {C D : Nat}
    (hC : DeclaredIn l ref C) (hD : DeclaredIn l ref D) : C = D := by
  obtain ⟨file, p, hp, d, hd, rfl, -⟩ := hC
  obtain ⟨file', q, hq, d', hd', href, -⟩ := hD
  obtain rfl : file = file' := by rw [← hp.declares_own hd, ← hq.declares_own hd', href]
  exact hp.chunk_eq hsplit hq

end Spec

/-! ### The walks -/

/-- A piece of a chunk's walk declares and uses these symbols, and does no more. -/
structure Adds (chunkIndex : Nat) (declares uses : Ref → Prop) (f : Walk → Walk) : Prop where
  declared : ∀ s ref, declares ref → (f s).chunkIndex ref = some chunkIndex
  other : ∀ s ref, ¬ declares ref → (f s).chunkIndex ref = s.chunkIndex ref
  imports : ∀ s ref, ref ∈ (f s).chunkMeta.imports.keys ↔ uses ref ∨ ref ∈ s.chunkMeta.imports.keys
  exports : ∀ s, (f s).chunkMeta.exports = s.chunkMeta.exports
  dynamic : ∀ s, chunkIndex ∉ s.chunkMeta.dynamicImports.keys →
    chunkIndex ∉ (f s).chunkMeta.dynamicImports.keys

namespace Adds
variable {chunkIndex : Nat}

theorem nothing {f : Walk → Walk} (hindex : ∀ s, (f s).chunkIndex = s.chunkIndex)
    (himports : ∀ s, (f s).chunkMeta.imports = s.chunkMeta.imports)
    (hexports : ∀ s, (f s).chunkMeta.exports = s.chunkMeta.exports)
    (hdynamic : ∀ s, chunkIndex ∉ s.chunkMeta.dynamicImports.keys →
      chunkIndex ∉ (f s).chunkMeta.dynamicImports.keys) :
    Adds chunkIndex (fun _ => False) (fun _ => False) f where
  declared _ _ h := h.elim
  other s ref _ := congrFun (hindex s) ref
  imports s ref := by rw [himports, false_or]
  exports := hexports
  dynamic := hdynamic

theorem comp {declares₁ uses₁ declares₂ uses₂ : Ref → Prop} {f g : Walk → Walk}
    (hf : Adds chunkIndex declares₁ uses₁ f) (hg : Adds chunkIndex declares₂ uses₂ g) :
    Adds chunkIndex (fun ref => declares₁ ref ∨ declares₂ ref) (fun ref => uses₁ ref ∨ uses₂ ref)
      fun s => g (f s) where
  declared s ref h := by
    by_cases h₂ : declares₂ ref
    · exact hg.declared _ ref h₂
    · rw [hg.other _ ref h₂]
      exact hf.declared s ref (h.resolve_right h₂)
  other s ref h := by
    obtain ⟨h₁, h₂⟩ := not_or.mp h
    rw [hg.other _ ref h₂, hf.other s ref h₁]
  imports s ref := by rw [hg.imports, hf.imports, ← or_assoc, or_comm (a := uses₂ ref)]
  exports s := by rw [hg.exports, hf.exports]
  dynamic s h := hg.dynamic _ (hf.dynamic s h)

theorem foldl {α : Type} {declares uses : α → Ref → Prop} {f : Walk → α → Walk} (as : List α)
    (h : ∀ a ∈ as, Adds chunkIndex (declares a) (uses a) fun s => f s a) :
    Adds chunkIndex (fun ref => ∃ a ∈ as, declares a ref) (fun ref => ∃ a ∈ as, uses a ref)
      fun s => as.foldl f s := by
  induction as with
  | nil =>
    have hnil : Adds chunkIndex (fun _ => False) (fun _ => False) fun s => s :=
      nothing (fun _ => rfl) (fun _ => rfl) (fun _ => rfl) fun _ h => h
    simpa using hnil
  | cons a as ih =>
    have hcomp := (h a List.mem_cons_self).comp (ih fun a' ha' => h a' (List.mem_cons_of_mem _ ha'))
    simpa only [List.mem_cons, exists_eq_or_imp, List.foldl_cons] using hcomp

theorem congr {declares uses declares' uses' : Ref → Prop} {f : Walk → Walk}
    (h : Adds chunkIndex declares uses f) (hdeclares : ∀ ref, declares ref ↔ declares' ref)
    (huses : ∀ ref, uses ref ↔ uses' ref) : Adds chunkIndex declares' uses' f := by
  obtain rfl : declares = declares' := funext fun ref => propext (hdeclares ref)
  obtain rfl : uses = uses' := funext fun ref => propext (huses ref)
  exact h

end Adds

section Walk
variable (l : Linker) (chunkIndex : Nat)

theorem adds_walkImportRecord (file : SourceIndex) (id : Nat) :
    Adds chunkIndex (fun _ => False) (fun _ => False) fun s => walkImportRecord l chunkIndex file s id := by
  have hcases : ∀ s, walkImportRecord l chunkIndex file s id = s ∨ ∃ records other,
      walkImportRecord l chunkIndex file s id = {s with
        importRecords := records
        chunkMeta := if other = chunkIndex then s.chunkMeta
          else {s.chunkMeta with dynamicImports := s.chunkMeta.dynamicImports.put other ()}} := by
    intro s
    rw [walkImportRecord]
    split
    · exact .inl rfl
    · split
      · exact .inl rfl
      · split
        · exact .inr ⟨_, _, rfl⟩
        · exact .inl rfl
  apply Adds.nothing
  · intro s
    obtain h | ⟨records, other, h⟩ := hcases s <;> rw [h]
  · intro s
    obtain h | ⟨records, other, h⟩ := hcases s <;> rw [h]
    dsimp only
    split <;> rfl
  · intro s
    obtain h | ⟨records, other, h⟩ := hcases s <;> rw [h]
    dsimp only
    split <;> rfl
  · intro s hnot
    obtain h | ⟨records, other, h⟩ := hcases s <;> rw [h]
    · exact hnot
    · dsimp only
      split
      · exact hnot
      · next hne =>
        intro hmem
        obtain rfl | hmem := (ArrayMap.mem_keys_put ..).mp hmem
        · exact hne rfl
        · exact hnot hmem

/-- One declaration after the other. -/
theorem assignChunkIndex_cons (s : Walk) (d : DeclaredSymbol) (declared : List DeclaredSymbol) :
    assignChunkIndex chunkIndex s (d :: declared) =
      assignChunkIndex chunkIndex (assignChunkIndex chunkIndex s [d]) declared := rfl

theorem assignChunkIndex_eq_foldl (declared : List DeclaredSymbol) : ∀ s, assignChunkIndex chunkIndex s declared =
    declared.foldl (fun s d => assignChunkIndex chunkIndex s [d]) s := by
  induction declared with
  | nil => exact fun s => rfl
  | cons d declared ih =>
    intro s
    rw [assignChunkIndex_cons, ih, List.foldl_cons]

theorem adds_declaration (d : DeclaredSymbol) :
    Adds chunkIndex (fun ref => d.ref = ref ∧ d.isTopLevel = true) (fun _ => False)
      fun s => assignChunkIndex chunkIndex s [d] where
  declared s ref h := by
    obtain ⟨rfl, htop⟩ := h
    simp [assignChunkIndex, htop]
  other s ref h := by
    show (if d.isTopLevel = true then Function.update s.chunkIndex d.ref (some chunkIndex) else s.chunkIndex) ref = _
    split
    · next htop => exact Function.update_of_ne (fun heq => h ⟨heq.symm, htop⟩) ..
    · rfl
  imports s ref := by rw [false_or]; rfl
  exports _ := rfl
  dynamic _ h := h

theorem adds_assignChunkIndex (declared : List DeclaredSymbol) :
    Adds chunkIndex (fun ref => ∃ d ∈ declared, d.ref = ref ∧ d.isTopLevel = true) (fun _ => False)
      fun s => assignChunkIndex chunkIndex s declared := by
  rw [funext (assignChunkIndex_eq_foldl chunkIndex declared)]
  refine (Adds.foldl declared fun d _ => adds_declaration chunkIndex d).congr (fun _ => Iff.rfl) fun ref => ?_
  simp

theorem adds_putImport (refs : List Ref) :
    Adds chunkIndex (fun _ => False) (· ∈ refs) fun s => refs.foldl putImport s := by
  have hone : ∀ ref, Adds chunkIndex (fun _ => False) (· = ref) fun s => putImport s ref := by
    intro ref
    exact
      { declared := fun _ _ h => h.elim
        other := fun _ _ _ => rfl
        imports := fun s ref' => ArrayMap.mem_keys_put ..
        exports := fun _ => rfl
        dynamic := fun _ h => h }
  refine (Adds.foldl refs fun ref _ => hone ref).congr (fun ref => by simp) fun ref => ?_
  simp

/-- What a part of a file declares. -/
def PartDeclares (part : Part) (ref : Ref) : Prop := ∃ d ∈ part.declaredSymbols, d.ref = ref ∧ d.isTopLevel = true

def PartUses (file : SourceIndex) (part : Part) (ref : Ref) : Prop :=
  ∃ used ∈ part.symbolUses, refToUse l file used = some ref

theorem adds_walkPart (file : SourceIndex) (part : Part) :
    Adds chunkIndex (PartDeclares part) (PartUses l file part) fun s => walkPart l chunkIndex file s part := by
  have hrecords := Adds.foldl part.importRecordIndices fun id _ => adds_walkImportRecord l chunkIndex file id
  have hassign := adds_assignChunkIndex chunkIndex part.declaredSymbols
  have huses := adds_putImport chunkIndex (part.symbolUses.filterMap (refToUse l file))
  refine ((hrecords.comp hassign).comp huses).congr (fun ref => ?_) fun ref => ?_
  · simp [PartDeclares]
  · simp [PartUses]

theorem adds_walkFile (file : SourceIndex) :
    Adds chunkIndex (fun ref => ∃ part ∈ liveParts l file, PartDeclares part ref)
      (fun ref => ∃ part ∈ liveParts l file, PartUses l file part ref) fun s => walkFile l chunkIndex s file :=
  Adds.foldl _ fun part _ => adds_walkPart l chunkIndex file part

def ChunkDeclares (chunk : Chunk) (ref : Ref) : Prop :=
  chunk.content = .javascript ∧
    ∃ file ∈ chunk.filesWithPartsInChunk, ∃ part ∈ liveParts l file, PartDeclares part ref

def ChunkUses (chunk : Chunk) (ref : Ref) : Prop :=
  chunk.content = .javascript ∧
    ((∃ file ∈ chunk.filesWithPartsInChunk, ∃ part ∈ liveParts l file, PartUses l file part ref) ∨
      chunk.entryPoint.isEntryPoint = true ∧ ref ∈ entryPointRefs l chunk.entryPoint.sourceIndex)

theorem adds_walk (chunk : Chunk) :
    Adds chunkIndex (ChunkDeclares l chunk) (ChunkUses l chunk) fun s => walk l chunkIndex s chunk := by
  by_cases hjs : chunk.content = .javascript
  · have hfiles := Adds.foldl chunk.filesWithPartsInChunk fun file _ => adds_walkFile l chunkIndex file
    by_cases hentry : chunk.entryPoint.isEntryPoint = true
    · have hentryRefs := adds_putImport chunkIndex (entryPointRefs l chunk.entryPoint.sourceIndex)
      simp only [walk, if_pos hjs, if_pos hentry]
      refine (hfiles.comp hentryRefs).congr (fun ref => ?_) fun ref => ?_
      · simp [ChunkDeclares, hjs]
      · simp [ChunkUses, hjs, hentry]
    · simp only [walk, if_pos hjs, if_neg hentry]
      refine hfiles.congr (fun ref => ?_) fun ref => ?_
      · simp [ChunkDeclares, hjs]
      · simp [ChunkUses, hjs, hentry]
  · simp only [walk, if_neg hjs]
    refine (Adds.nothing (fun _ => rfl) (fun _ => rfl) (fun _ => rfl) fun _ h => h).congr (fun ref => ?_) fun ref => ?_
    · simp [ChunkDeclares, hjs]
    · simp [ChunkUses, hjs]

end Walk

section Walks
variable {l : Linker}

variable {ref : Ref} {C : Nat}

theorem declaredIn_iff :
    DeclaredIn l ref C ↔ ∃ chunk, l.chunks[C]? = some chunk ∧ ChunkDeclares l chunk ref := by
  constructor
  · intro h
    obtain ⟨file, part, ⟨chunk, hchunk, hjs, hfile, hpart⟩, hd⟩ := h
    exact ⟨chunk, hchunk, hjs, file, hfile, part, mem_liveParts.mpr hpart, hd⟩
  · intro h
    obtain ⟨chunk, hchunk, hjs, file, hfile, part, hpart, hd⟩ := h
    exact ⟨file, part, ⟨chunk, hchunk, hjs, hfile, mem_liveParts.mp hpart⟩, hd⟩

/-- What the walks over some chunks leave: the uses of each, and for each symbol they
declare the last chunk that declares it. -/
structure Walked (l : Linker) (k : Nat) (s s' : Walk) (metas : List ChunkMeta) (chunks : List Chunk) : Prop where
  length : metas.length = chunks.length
  imports : ∀ (i : Nat) (chunk : Chunk) (m : ChunkMeta), chunks[i]? = some chunk → metas[i]? = some m →
    ∀ ref, ref ∈ m.imports.keys ↔ ChunkUses l chunk ref
  exports : ∀ m ∈ metas, m.exports = .empty
  dynamic : ∀ (i : Nat) (m : ChunkMeta), metas[i]? = some m → k + i ∉ m.dynamicImports.keys
  sound : ∀ ref C, s'.chunkIndex ref = some C → s.chunkIndex ref = some C ∨
    ∃ (i : Nat) (chunk : Chunk), chunks[i]? = some chunk ∧ C = k + i ∧ ChunkDeclares l chunk ref
  kept : ∀ ref, s.chunkIndex ref ≠ none → s'.chunkIndex ref ≠ none
  declared : ∀ chunk ∈ chunks, ∀ ref, ChunkDeclares l chunk ref → s'.chunkIndex ref ≠ none

theorem walked (l : Linker) (chunks : List Chunk) : ∀ k s,
    Walked l k s (walkChunks l k s chunks).1 (walkChunks l k s chunks).2 chunks := by
  induction chunks with
  | nil =>
    intro k s
    exact
      { length := rfl
        imports := fun i chunk m h => by simp at h
        exports := fun m h => by cases h
        dynamic := fun i m h => by simp [walkChunks] at h
        sound := fun ref C h => .inl h
        kept := fun ref h => h
        declared := fun chunk h => by cases h }
  | cons chunk chunks ih =>
    intro k s
    have hadds := adds_walk l k chunk
    let s₀ : Walk := {s with chunkMeta := ⟨.empty, .empty, .empty⟩}
    let s₁ := walk l k s₀ chunk
    have hrest := ih (k + 1) s₁
    show Walked l k s (walkChunks l (k + 1) s₁ chunks).1
      (s₁.chunkMeta :: (walkChunks l (k + 1) s₁ chunks).2) (chunk :: chunks)
    exact
      { length := congrArg (· + 1) hrest.length
        imports := by
          intro i c m hc hm ref
          cases i with
          | zero =>
            obtain rfl := Option.some.inj hc
            obtain rfl := Option.some.inj hm
            rw [hadds.imports s₀ ref]
            exact or_iff_left (by simp [s₀, ArrayMap.keys, ArrayMap.empty])
          | succ i => exact hrest.imports i c m hc hm ref
        exports := by
          intro m hm
          obtain rfl | hm := List.mem_cons.mp hm
          · exact hadds.exports s₀
          · exact hrest.exports m hm
        dynamic := by
          intro i m hm
          cases i with
          | zero =>
            obtain rfl := Option.some.inj hm
            exact hadds.dynamic s₀ (by simp [s₀, ArrayMap.keys, ArrayMap.empty])
          | succ i =>
            rw [Nat.add_comm i 1, ← Nat.add_assoc]
            exact hrest.dynamic i m hm
        sound := by
          intro ref C h
          obtain h | ⟨i, c, hc, rfl, hd⟩ := hrest.sound ref C h
          · by_cases hd : ChunkDeclares l chunk ref
            · rw [hadds.declared s₀ ref hd] at h
              exact .inr ⟨0, chunk, rfl, (Option.some.inj h).symm, hd⟩
            · rw [hadds.other s₀ ref hd] at h
              exact .inl h
          · exact .inr ⟨i + 1, c, hc, by omega, hd⟩
        kept := by
          intro ref h
          apply hrest.kept
          by_cases hd : ChunkDeclares l chunk ref
          · rw [hadds.declared s₀ ref hd]
            exact Option.some_ne_none k
          · rw [hadds.other s₀ ref hd]
            exact h
        declared := by
          intro c hc ref hd
          obtain rfl | hc := List.mem_cons.mp hc
          · apply hrest.kept
            rw [hadds.declared s₀ ref hd]
            exact Option.some_ne_none k
          · exact hrest.declared c hc ref hd }

/-- After the walks a symbol has the index of the chunk it is declared in. -/
theorem Walked.chunkIndex_iff {s s' : Walk} {metas : List ChunkMeta} (h : Walked l 0 s s' metas l.chunks)
    (hsplit : l.codeSplitting = true) (hs : ∀ ref, s.chunkIndex ref = none) :
    s'.chunkIndex ref = some C ↔ DeclaredIn l ref C := by
  have hsound : ∀ D, s'.chunkIndex ref = some D → DeclaredIn l ref D := by
    intro D hD
    obtain hold | ⟨i, chunk, hchunk, rfl, hd⟩ := h.sound ref D hD
    · rw [hs] at hold
      cases hold
    · exact declaredIn_iff.mpr ⟨chunk, by rw [Nat.zero_add]; exact hchunk, hd⟩
  constructor
  · exact hsound C
  · intro hC
    obtain ⟨chunk, hchunk, hd⟩ := declaredIn_iff.mp hC
    obtain ⟨D, hD⟩ := Option.ne_none_iff_exists'.mp (h.declared chunk (List.mem_of_getElem? hchunk) ref hd)
    rw [hD, (hsound D hD).unique hsplit hC]

/-- A use is only passed over in a CommonJS file, for its own wrapper. -/
theorem refToUse_eq {file : SourceIndex} (hbound : (l.symbols ref).isUnbound = false)
    (hpresent : (l.symbols ref).importItemStatus ≠ .missing) :
    refToUse l file ref = some (followed l file ref) ∨
      (l.flags file).wrap = .cjs ∧ followed l file ref = l.wrapperRefs file ∧
        (l.wrapperRefs file).sourceIndex = file := by
  simp only [refToUse, hbound, Bool.false_eq_true, if_false, beq_iff_eq, if_neg hpresent, followed]
  cases hbind : l.importsToBind file ref with
  | some importRef => exact .inl rfl
  | none =>
    dsimp only
    split
    · next hwrapper =>
      obtain ⟨hwrap, rfl⟩ : (l.flags file).wrap = .cjs ∧ ref = l.wrapperRefs file := by simpa using hwrapper
      obtain ⟨hown, hplain⟩ := l.wrapper_own file hwrap
      exact .inr ⟨hwrap, by simp [throughNamespaceAlias, hplain], hown⟩
    · exact .inl rfl

theorem EntryPointOf.uses {file : SourceIndex} (h : EntryPointOf l C file)
    (href : ref ∈ entryPointRefs l file) : ∃ chunk, l.chunks[C]? = some chunk ∧ ChunkUses l chunk ref := by
  obtain ⟨chunk, hchunk, hjs, hentry, rfl⟩ := h
  exact ⟨chunk, hchunk, hjs, .inr ⟨hentry, href⟩⟩

/-- The walk of a chunk comes by everything it uses of other chunks. -/
theorem Uses.chunkUses (hsplit : l.codeSplitting = true) {C D : Nat} (h : Uses l C ref)
    (hD : DeclaredIn l ref D) (hne : D ≠ C) : ∃ chunk, l.chunks[C]? = some chunk ∧ ChunkUses l chunk ref := by
  cases h with
  | @part file part ref live use bound present =>
    obtain hrecorded | ⟨-, hwrapper, hown⟩ := refToUse_eq bound present
    · obtain ⟨chunk, hchunk, hjs, hfile, hpart⟩ := live
      exact ⟨chunk, hchunk, hjs, .inl ⟨file, hfile, part, mem_liveParts.mpr hpart, ref, use, hrecorded⟩⟩
    · -- the wrapper is declared in the chunk of its own file
      obtain ⟨file', part', live', d, hd, href, -⟩ := hD
      obtain rfl : file = file' := by rw [← live'.declares_own hd, href, hwrapper, hown]
      exact absurd (live'.chunk_eq hsplit live) hne
  | @exported file name target entry wrap alias_mem resolved =>
    apply entry.uses
    rw [entryPointRefs, if_neg wrap]
    refine List.mem_append_left _ (List.mem_append_left _ (List.mem_filterMap.mpr ⟨name, alias_mem, ?_⟩))
    rw [resolved]
    rfl
  | exportsObject entry force =>
    apply entry.uses
    rw [entryPointRefs, if_pos force]
    simp
  | wrapper entry wrap =>
    apply entry.uses
    rw [entryPointRefs, if_neg wrap]
    simp

/-- Every use of a symbol of another chunk is recorded. -/
theorem Walked.uses {s s' : Walk} {metas : List ChunkMeta} (h : Walked l 0 s s' metas l.chunks)
    (hsplit : l.codeSplitting = true) {C D : Nat} (huse : Uses l C ref) (hD : DeclaredIn l ref D)
    (hne : D ≠ C) : ∃ m, metas[C]? = some m ∧ ref ∈ m.imports.keys := by
  obtain ⟨chunk, hchunk, huses⟩ := huse.chunkUses hsplit hD hne
  have hlt : C < metas.length := h.length ▸ (List.getElem?_eq_some_iff.mp hchunk).1
  exact ⟨_, List.getElem?_eq_getElem hlt, (h.imports C chunk _ hchunk (List.getElem?_eq_getElem hlt) ref).mpr huses⟩

end Walks

end Funbun.Bundler.CrossChunk
