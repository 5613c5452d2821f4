import Funbun.Library.Loop
import Funbun.Bundler.CrossChunkUses

/-! Matching uses and declarations.

The first pass goes over the uses of every chunk. Each turn keeps `Bound`: what a chunk
imports the other chunk exports, and no chunk imports from itself. Imports are only
added, so the pass reaches what each of its turns reaches. -/
namespace Funbun.Bundler.CrossChunk
open Library Library.Loop

/-! ### Matching uses and declarations -/

/-- Some chunk needs the symbol from this one. -/
def Exported (metas : List ChunkMeta) (D : Nat) (ref : Ref) : Prop :=
  ∃ m, metas[D]? = some m ∧ ref ∈ m.exports.keys

theorem exported_getOrPut {metas : List ChunkMeta} {D : Nat} (hD : D < metas.length) (ref : Ref) (D' : Nat) (ref' : Ref) :
    Exported (metas.modify D fun m => {m with exports := m.exports.getOrPut ref ()}) D' ref' ↔
      (D' = D ∧ ref' = ref) ∨ Exported metas D' ref' := by
  simp only [Exported, List.getElem?_modify]
  by_cases hD' : D' = D
  · subst hD'
    rw [List.getElem?_eq_getElem hD]
    simp [ArrayMap.getOrPut, ArrayMap.mem_keys_update]
  · simp [hD', Ne.symm hD']

namespace Linking

/-- What one chunk imports from another, if it imports it. -/
def importsAt (s : Linking) (C D : Nat) : Option (List CrossChunkImportItem) :=
  (s.links[C]?).bind (·.importsFromOtherChunks.get? D)

def Imported (s : Linking) (C D : Nat) (ref : Ref) : Prop :=
  ∃ items, s.importsAt C D = some items ∧ ∃ item ∈ items, item.ref = ref

/-- Imports are only added. -/
structure Extends (s s' : Linking) : Prop where
  chunk : ∀ C D, s.importsAt C D ≠ none → s'.importsAt C D ≠ none
  imported : ∀ C D ref, s.Imported C D ref → s'.Imported C D ref

theorem Extends.refl (s : Linking) : Extends s s := ⟨fun _ _ h => h, fun _ _ _ h => h⟩

theorem Extends.trans (s₁ s₂ s₃ : Linking) (h : Extends s₁ s₂) (h' : Extends s₂ s₃) : Extends s₁ s₃ :=
  ⟨fun C D hs => h'.chunk C D (h.chunk C D hs), fun C D ref hs => h'.imported C D ref (h.imported C D ref hs)⟩

/-- The uses are those the walks found, what is imported is exported by the chunk it is
imported from, and no chunk imports from itself. -/
structure Bound (l : Linker) (metas : List ChunkMeta) (s : Linking) : Prop where
  links : s.links.length = l.chunks.length
  metas_length : s.metas.length = l.chunks.length
  metas_eq : ∀ (C : Nat) (m : ChunkMeta), s.metas[C]? = some m → ∃ m₀, metas[C]? = some m₀ ∧
    m.imports = m₀.imports ∧ m.dynamicImports = m₀.dynamicImports
  sound : ∀ C D items, s.importsAt C D = some items → D ≠ C ∧ isJavaScript l D = true ∧
    ∀ item ∈ items, Exported s.metas D item.ref
  others : ∀ (C : Nat) (c : ChunkLinks), s.links[C]? = some c → (∀ x ∈ c.crossChunkImports, x.chunkIndex ≠ C) ∧
    c.exportsToOtherChunks = .empty ∧ c.crossChunkPrefixStmts = [] ∧ c.crossChunkSuffixStmts = []

section Bound
variable {l : Linker} {metas : List ChunkMeta}

/-- Items are added to what one chunk imports from another. -/
def addImports (s : Linking) (C D : Nat) (items : List CrossChunkImportItem) : Linking :=
  {s with links := s.links.modify C fun c => {c with
    importsFromOtherChunks := c.importsFromOtherChunks.update D fun old => old.getD [] ++ items}}

variable {s : Linking} {C D : Nat}

theorem importsAt_addImports (hC : C < s.links.length) (items : List CrossChunkImportItem)
    (C' D' : Nat) : (s.addImports C D items).importsAt C' D' =
      if C' = C ∧ D' = D then some ((s.importsAt C D).getD [] ++ items) else s.importsAt C' D' := by
  simp only [importsAt, addImports, List.getElem?_modify]
  by_cases hC' : C' = C
  · subst hC'
    rw [List.getElem?_eq_getElem hC]
    simp [ArrayMap.get?_update]
  · simp [hC', Ne.symm hC']

theorem addImports_grows (hC : C < s.links.length) (items : List CrossChunkImportItem) :
    Extends s (s.addImports C D items) where
  chunk C' D' h := by
    rw [importsAt_addImports hC]
    split
    · exact Option.some_ne_none _
    · exact h
  imported C' D' ref h := by
    obtain ⟨old, hold, item, hitem, href⟩ := h
    rw [Imported, importsAt_addImports hC]
    split
    · next heq =>
      obtain ⟨rfl, rfl⟩ := heq
      exact ⟨_, rfl, item, by simp [hold, hitem], href⟩
    · exact ⟨old, hold, item, hitem, href⟩

theorem Bound.addImports (h : Bound l metas s) (hC : C < l.chunks.length) (hne : D ≠ C)
    (hjs : isJavaScript l D = true) {items : List CrossChunkImportItem}
    (hitems : ∀ item ∈ items, Exported s.metas D item.ref) : Bound l metas (s.addImports C D items) where
  links := by
    show (s.links.modify C _).length = _
    rw [List.length_modify, h.links]
  metas_length := h.metas_length
  metas_eq := h.metas_eq
  sound C' D' items' h' := by
    rw [importsAt_addImports (h.links ▸ hC)] at h'
    split at h'
    · next heq =>
      obtain ⟨rfl, rfl⟩ := heq
      obtain rfl := Option.some.inj h'
      refine ⟨hne, hjs, fun item hitem => ?_⟩
      obtain hitem | hitem := List.mem_append.mp hitem
      · obtain ⟨old, hold, hitem⟩ : ∃ old, s.importsAt C' D' = some old ∧ item ∈ old := by
          cases hold : s.importsAt C' D' with
          | none => simp [hold] at hitem
          | some old => exact ⟨old, rfl, by simpa [hold] using hitem⟩
        exact (h.sound C' D' old hold).2.2 item hitem
      · exact hitems item hitem
    · exact h.sound C' D' items' h'
  others C' c hc := by
    obtain ⟨c₀, hc₀, rfl⟩ : ∃ c₀, s.links[C']? = some c₀ ∧ (if C = C' then {c₀ with
        importsFromOtherChunks := c₀.importsFromOtherChunks.update D fun old => old.getD [] ++ items} else c₀) = c := by
      have hmodify : (s.links.modify C _)[C']? = some c := hc
      rw [List.getElem?_modify] at hmodify
      exact Option.map_eq_some_iff.mp hmodify
    split <;> exact h.others C' c₀ hc₀

/-- A symbol is marked as exported. -/
def addExport (s : Linking) (D : Nat) (ref : Ref) : Linking :=
  {s with metas := s.metas.modify D fun m => {m with exports := m.exports.getOrPut ref ()}}

theorem Bound.addExport (h : Bound l metas s) (hD : D < l.chunks.length) (ref : Ref) :
    Bound l metas (s.addExport D ref) where
  links := h.links
  metas_length := by
    show (s.metas.modify D _).length = _
    rw [List.length_modify, h.metas_length]
  metas_eq C m hm := by
    have hmodify : (s.metas.modify D _)[C]? = some m := hm
    rw [List.getElem?_modify] at hmodify
    obtain ⟨m₁, hm₁, rfl⟩ := Option.map_eq_some_iff.mp hmodify
    split <;> exact h.metas_eq C m₁ hm₁
  sound C' D' items h' := by
    obtain ⟨hne, hjs, hitems⟩ := h.sound C' D' items h'
    exact ⟨hne, hjs, fun item hitem => (exported_getOrPut (h.metas_length ▸ hD) ..).mpr (.inr (hitems item hitem))⟩
  others := h.others

/-- Other chunks than those imported from, in an order of their own. -/
def addOthers (s : Linking) (C : Nat) (others : List ChunkImport) : Linking :=
  {s with links := s.links.modify C fun c => {c with crossChunkImports := c.crossChunkImports ++ others}}

theorem importsAt_addOthers (s : Linking) (C : Nat) (others : List ChunkImport) (C' D' : Nat) :
    (s.addOthers C others).importsAt C' D' = s.importsAt C' D' := by
  simp only [importsAt, addOthers, List.getElem?_modify]
  by_cases hC' : C = C'
  · subst hC'
    cases s.links[C]? <;> simp
  · simp [hC']

theorem Bound.addOthers (h : Bound l metas s) {others : List ChunkImport}
    (hothers : ∀ x ∈ others, x.chunkIndex ≠ C) : Bound l metas (s.addOthers C others) where
  links := by
    show (s.links.modify C _).length = _
    rw [List.length_modify, h.links]
  metas_length := h.metas_length
  metas_eq := h.metas_eq
  sound C' D' items h' := h.sound C' D' items (importsAt_addOthers s C others C' D' ▸ h')
  others C' c hc := by
    have hmodify : (s.links.modify C _)[C']? = some c := hc
    rw [List.getElem?_modify] at hmodify
    obtain ⟨c₀, hc₀, rfl⟩ := Option.map_eq_some_iff.mp hmodify
    obtain ⟨hold, hempty⟩ := h.others C' c₀ hc₀
    split
    · next heq =>
      refine ⟨fun x hx => ?_, hempty⟩
      obtain hx | hx := List.mem_append.mp hx
      · exact hold x hx
      · exact heq ▸ hothers x hx
    · exact ⟨hold, hempty⟩

end Bound
end Linking

section Turns
variable {l : Linker} {metas : List ChunkMeta} {declaredIn : Ref → Option Nat}

theorem lt_of_isJavaScript {D : Nat} (h : isJavaScript l D = true) : D < l.chunks.length := by
  by_contra hge
  simp [isJavaScript, List.getElem?_eq_none (Nat.le_of_not_lt hge)] at h

theorem turn_importRef (hjs : ∀ ref D, declaredIn ref = some D → isJavaScript l D = true) {C : Nat}
    (hC : C < l.chunks.length) (ref : Ref) :
    Turn (Linking.Bound l metas) Linking.Extends
      (fun s => ∀ D, declaredIn ref = some D → D ≠ C → s.Imported C D ref) fun s => importRef declaredIn C s ref := by
  cases hD : declaredIn ref with
  | none =>
    refine ((Turn.skip Linking.Extends.refl).weaken fun s _ _ D hD' _ => by cases hD').congr fun s _ => ?_
    rw [importRef, hD]
  | some D =>
    by_cases hne : D = C
    · refine ((Turn.skip Linking.Extends.refl).weaken fun s _ _ D' hD' hne' => ?_).congr fun s _ => ?_
      · exact absurd (Option.some.inj hD' ▸ hne) hne'
      · simp only [importRef, hD, if_pos hne]
    · have hlt := lt_of_isJavaScript (hjs ref D hD)
      have heq : ∀ s, importRef declaredIn C s ref = (s.addExport D ref).addImports C D [⟨[], ref⟩] := by
        intro s
        simp only [importRef, hD, if_neg hne]
        rfl
      have hexport : ∀ s, Linking.Bound l metas s → Linking.Bound l metas (s.addExport D ref) :=
        fun s hs => hs.addExport hlt ref
      exact
        { keeps := by
            intro s hs
            rw [heq]
            refine (hexport s hs).addImports hC hne (hjs ref D hD) fun item hitem => ?_
            obtain rfl := List.mem_singleton.mp hitem
            exact (exported_getOrPut (hs.metas_length ▸ hlt) ..).mpr (.inl ⟨rfl, rfl⟩)
          grows := by
            intro s hs
            rw [heq]
            have hgrows : Linking.Extends (s.addExport D ref) ((s.addExport D ref).addImports C D [⟨[], ref⟩]) :=
              Linking.addImports_grows ((hexport s hs).links ▸ hC) _
            exact ⟨hgrows.chunk, hgrows.imported⟩
          reaches := by
            intro s hs D' hD' _
            obtain rfl := Option.some.inj hD'
            rw [heq, Linking.Imported, Linking.importsAt_addImports ((hexport s hs).links ▸ hC), if_pos ⟨rfl, rfl⟩]
            exact ⟨_, rfl, ⟨[], ref⟩, by simp, rfl⟩ }

theorem turn_importEntryChunk {C : Nat} (hC : C < l.chunks.length) (id D : Nat) :
    Turn (Linking.Bound l metas) Linking.Extends
      (fun s => D ≠ C → isJavaScript l D = true → ((l.chunks[D]?).map (·.entryBits id)).getD false = true →
        s.importsAt C D ≠ none) fun s => importEntryChunk l C id s D := by
  by_cases hother : D ≠ C ∧ isJavaScript l D = true ∧ ((l.chunks[D]?).map (·.entryBits id)).getD false = true
  · obtain ⟨hne, hjs, hbit⟩ := hother
    have heq : ∀ s, importEntryChunk l C id s D = s.addImports C D [] := by
      intro s
      simp [importEntryChunk, hne, hjs, hbit, Linking.addImports, ArrayMap.getOrPut]
    exact
      { keeps := by
          intro s hs
          rw [heq]
          exact hs.addImports hC hne hjs (List.forall_mem_nil _)
        grows := by
          intro s hs
          rw [heq]
          exact Linking.addImports_grows (hs.links ▸ hC) []
        reaches := by
          intro s hs _ _ _
          rw [heq, Linking.importsAt_addImports (hs.links ▸ hC), if_pos ⟨rfl, rfl⟩]
          exact Option.some_ne_none _ }
  · refine ((Turn.skip Linking.Extends.refl).weaken fun s _ _ hne hjs hbit => ?_).congr fun s _ => ?_
    · exact absurd ⟨hne, hjs, hbit⟩ hother
    · rw [importEntryChunk]
      split
      · rfl
      · next h₁ =>
        split
        · next h₂ =>
          simp only [Bool.or_eq_true, decide_eq_true_eq, Bool.not_eq_true', not_or, Bool.not_eq_false] at h₁
          exact absurd ⟨h₁.1, h₁.2, h₂⟩ hother
        · rfl

theorem turn_addOthers {C : Nat} {others : List ChunkImport} (hothers : ∀ x ∈ others, x.chunkIndex ≠ C) :
    Turn (Linking.Bound l metas) Linking.Extends (fun _ => True) fun s => s.addOthers C others where
  keeps s hs := hs.addOthers hothers
  grows s _ := by
    refine ⟨fun C' D' h => ?_, fun C' D' ref h => ?_⟩
    · rw [Linking.importsAt_addOthers]
      exact h
    · rw [Linking.Imported, Linking.importsAt_addOthers]
      exact h
  reaches _ _ := trivial

/-- What the imports of one chunk have to be. -/
def Matched (l : Linker) (metas : List ChunkMeta) (declaredIn : Ref → Option Nat) (C : Nat) (s : Linking) : Prop :=
  ∀ (chunk : Chunk) (m : ChunkMeta), l.chunks[C]? = some chunk → chunk.content = .javascript → metas[C]? = some m →
    (∀ ref ∈ m.imports.keys, ∀ D, declaredIn ref = some D → D ≠ C → s.Imported C D ref) ∧
      (chunk.entryPoint.isEntryPoint = true → ∀ (D : Nat) (other : Chunk), l.chunks[D]? = some other →
        other.content = .javascript → D ≠ C → other.entryBits chunk.entryPoint.entryPointId = true →
          s.importsAt C D ≠ none)

theorem Matched.mono {C : Nat} (s s' : Linking) (hs : Linking.Extends s s') (h : Matched l metas declaredIn C s) :
    Matched l metas declaredIn C s' := by
  intro chunk m hchunk hjs hm
  obtain ⟨hused, hentry⟩ := h chunk m hchunk hjs hm
  exact ⟨fun ref href D hD hne => hs.imported C D ref (hused ref href D hD hne),
    fun he D other hother hjs hne hbit => hs.chunk C D (hentry he D other hother hjs hne hbit)⟩

theorem Linking.Bound.chunkMeta {s : Linking} (h : s.Bound l metas) {C : Nat} (hC : C < l.chunks.length) :
    ∃ m m₀, s.metas[C]? = some m ∧ metas[C]? = some m₀ ∧ m.imports = m₀.imports ∧
      m.dynamicImports = m₀.dynamicImports := by
  have hm := List.getElem?_eq_getElem (h.metas_length ▸ hC)
  obtain ⟨m₀, hm₀, himports, hdynamic⟩ := h.metas_eq C _ hm
  exact ⟨_, m₀, hm, hm₀, himports, hdynamic⟩

/-- The loop over the chunks for an entry point. -/
theorem turn_entry {chunk : Chunk} {C : Nat} (hC : C < l.chunks.length) :
    Turn (Linking.Bound l metas) Linking.Extends
      (fun s => chunk.entryPoint.isEntryPoint = true → ∀ (D : Nat) (other : Chunk), l.chunks[D]? = some other →
        other.content = .javascript → D ≠ C → other.entryBits chunk.entryPoint.entryPointId = true →
          s.importsAt C D ≠ none)
      fun s => if chunk.entryPoint.isEntryPoint then
          (List.range l.chunks.length).foldl (importEntryChunk l C chunk.entryPoint.entryPointId) s
        else s := by
  by_cases hentry : chunk.entryPoint.isEntryPoint = true
  · have hloop := Turn.foldl Linking.Extends.refl Linking.Extends.trans (List.range l.chunks.length)
      (fun D _ s s' hs h hne hjs hbit => hs.chunk C D (h hne hjs hbit))
      fun D _ => @turn_importEntryChunk l metas C hC chunk.entryPoint.entryPointId D
    refine (hloop.weaken fun s _ h _ D other hother hjs hne hbit => ?_).congr fun s _ => if_pos hentry
    refine h D (List.mem_range.mpr (List.getElem?_eq_some_iff.mp hother).1) hne ?_ ?_
    · simp [isJavaScript, hother, hjs]
    · simp [hother, hbit]
  · exact ((Turn.skip Linking.Extends.refl).weaken fun s _ _ h => absurd h hentry).congr fun s _ => if_neg hentry

theorem turn_linkImports (hjs : ∀ ref D, declaredIn ref = some D → isJavaScript l D = true)
    (hdynamic : ∀ (C : Nat) (m : ChunkMeta), metas[C]? = some m → C ∉ m.dynamicImports.keys) {C : Nat}
    (hC : C < l.chunks.length) :
    Turn (Linking.Bound l metas) Linking.Extends (Matched l metas declaredIn C)
      fun s => linkImports l declaredIn s C := by
  have hchunk := List.getElem?_eq_getElem hC
  by_cases hcontent : l.chunks[C].content = .javascript
  · cases hm₀ : metas[C]? with
    | none =>
      have habsurd : ∀ s, ¬ Linking.Bound l metas s := by
        intro s hs
        obtain ⟨-, m₀, -, hsome, -⟩ := hs.chunkMeta hC
        rw [hm₀] at hsome
        cases hsome
      exact ⟨fun s hs => absurd hs (habsurd s), fun s hs => absurd hs (habsurd s), fun s hs => absurd hs (habsurd s)⟩
    | some m₀ =>
      let others := (m₀.dynamicImports.keys.insertionSort (· ≤ ·)).map fun D => (⟨.dynamic, D⟩ : ChunkImport)
      have hothers : ∀ x ∈ others, x.chunkIndex ≠ C := by
        intro x hx
        obtain ⟨D, hD, rfl⟩ := List.mem_map.mp hx
        intro heq
        exact hdynamic C m₀ hm₀ (heq ▸ (List.mem_insertionSort _).mp hD)
      have huses := Turn.foldl Linking.Extends.refl Linking.Extends.trans m₀.imports.keys
        (fun ref _ s s' hs h D hD hne => hs.imported C D ref (h D hD hne))
        fun ref _ => @turn_importRef l metas declaredIn hjs C hC ref
      have hentry := @turn_entry l metas l.chunks[C] C hC
      have hboth := huses.comp Linking.Extends.trans
        (fun s s' hs h ref href D hD hne => hs.imported C D ref (h ref href D hD hne)) hentry
      have hall := hboth.comp Linking.Extends.trans
        (fun s s' hs h => ⟨fun ref href D hD hne => hs.imported C D ref (h.1 ref href D hD hne),
          fun he D other hother hjs hne hbit => hs.chunk C D (h.2 he D other hother hjs hne hbit)⟩)
        (turn_addOthers hothers)
      refine (hall.weaken fun s _ h chunk m hchunk' _ hm => ?_).congr fun s hs => ?_
      · obtain rfl := Option.some.inj (hchunk.symm.trans hchunk')
        obtain rfl := Option.some.inj (hm₀.symm.trans hm)
        exact h.1
      · obtain ⟨m, m₁, hm, hm₁, himports, hdyn⟩ := hs.chunkMeta hC
        obtain rfl := Option.some.inj (hm₀.symm.trans hm₁)
        simp only [linkImports, hchunk, hm, if_pos hcontent, himports, hdyn]
        rfl
  · refine ((Turn.skip Linking.Extends.refl).weaken fun s _ _ chunk m hchunk' hjs' _ => ?_).congr fun s hs => ?_
    · obtain rfl := Option.some.inj (hchunk.symm.trans hchunk')
      exact absurd hjs' hcontent
    · obtain ⟨m, m₁, hm, -⟩ := hs.chunkMeta hC
      simp only [linkImports, hchunk, hm, if_neg hcontent]

end Turns

end Funbun.Bundler.CrossChunk
