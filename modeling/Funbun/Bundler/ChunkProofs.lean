import Funbun.Bundler.Chunks

/-! Every file is in its chunks, and every entry point has one. -/
namespace Funbun.Bundler.CodeSplitting
open Library

namespace Linker
variable (l : Linker)

/-- An entry point that is not a style sheet. -/
def JsEntry (e i : Nat) : Prop := l.entryPoints[e]? = some i ∧ l.hasCss i = false

/-! ### The entry points -/

/-- After the first `k` entry points: the last one that a key is for has the chunk. -/
structure Entered (b : Nat → Finset Nat) (k : Nat) (s : Chunks) : Prop where
  bits : s.entryBits = b
  found : ∀ key c, s.jsChunks.get? key = some c → ∃ e i, e < k ∧ l.JsEntry e i ∧ l.chunkKey b i e = key ∧
    c = l.entryChunk i e ∧ ∀ e' i', e < e' → e' < k → l.JsEntry e' i' → l.chunkKey b i' e' ≠ key
  placed : ∀ e i, e < k → l.JsEntry e i → ∃ j, s.entryPointToJsChunkIdx e = some j ∧
    s.jsChunks.keys[j]? = some (l.chunkKey b i e)
  entry : ∀ e j, s.entryPointToJsChunkIdx e = some j → ∃ i, e < k ∧ l.JsEntry e i

variable {l} {b : Nat → Finset Nat} {k i : Nat} {s : Chunks}

theorem update_bit (h : k ∈ b i) : Function.update b i (insert k (b i)) = b := by
  rw [Finset.insert_eq_of_mem h, Function.update_eq_self]

theorem Entered.css (h : l.Entered b k s) (hentry : l.entryPoints[k]? = some i) (hcss : l.hasCss i = true)
    {s' : Chunks} (hbits : s'.entryBits = b) (hchunks : s'.jsChunks = s.jsChunks)
    (hidx : s'.entryPointToJsChunkIdx = s.entryPointToJsChunkIdx) : l.Entered b (k + 1) s' := by
  have hnot : ∀ i', ¬ l.JsEntry k i' := by
    intro i' hjs
    cases hentry.symm.trans hjs.1
    exact Bool.noConfusion (hcss.symm.trans hjs.2)
  refine ⟨hbits, ?_, ?_, ?_⟩
  · intro key c hc
    rw [hchunks] at hc
    obtain ⟨e, i', he, hjs, hkey, hchunk, hlast⟩ := h.found key c hc
    refine ⟨e, i', he.trans (Nat.lt_succ_self k), hjs, hkey, hchunk, ?_⟩
    intro e' j hlt hlt' hjs'
    rcases Nat.lt_succ_iff_lt_or_eq.mp hlt' with hlt' | rfl
    · exact hlast e' j hlt hlt' hjs'
    · exact absurd hjs' (hnot j)
  · intro e i' he hjs
    rw [hidx, hchunks]
    rcases Nat.lt_succ_iff_lt_or_eq.mp he with he | rfl
    · exact h.placed e i' he hjs
    · exact absurd hjs (hnot i')
  · intro e j hj
    rw [hidx] at hj
    obtain ⟨i', he, hjs⟩ := h.entry e j hj
    exact ⟨i', he.trans (Nat.lt_succ_self k), hjs⟩

theorem Entered.js (h : l.Entered b k s) (hjs : l.JsEntry k i) {s' : Chunks} (hbits : s'.entryBits = b)
    (hchunks : s'.jsChunks = s.jsChunks.put (l.chunkKey b i k) (l.entryChunk i k))
    (hidx : s'.entryPointToJsChunkIdx =
      Function.update s.entryPointToJsChunkIdx k (some (s'.jsChunks.keys.idxOf (l.chunkKey b i k)))) :
    l.Entered b (k + 1) s' := by
  refine ⟨hbits, ?_, ?_, ?_⟩
  · intro key c hc
    rw [hchunks, ArrayMap.put, ArrayMap.get?_update] at hc
    split at hc
    · rename_i hkey
      refine ⟨k, i, Nat.lt_succ_self k, hjs, hkey.symm, (Option.some.inj hc).symm, ?_⟩
      intro e' i' hlt hlt'
      omega
    · rename_i hkey
      obtain ⟨e, i', he, hjs', hkey', hchunk, hlast⟩ := h.found key c hc
      refine ⟨e, i', he.trans (Nat.lt_succ_self k), hjs', hkey', hchunk, ?_⟩
      intro e' j hlt hlt' hjs''
      rcases Nat.lt_succ_iff_lt_or_eq.mp hlt' with hlt' | rfl
      · exact hlast e' j hlt hlt' hjs''
      · cases hjs.1.symm.trans hjs''.1
        exact Ne.symm hkey
  · intro e i' he hjs'
    rw [hidx]
    rcases Nat.lt_succ_iff_lt_or_eq.mp he with he | rfl
    · obtain ⟨j, hj, hkey⟩ := h.placed e i' he hjs'
      refine ⟨j, ?_, ?_⟩
      · rw [Function.update_of_ne (Nat.ne_of_lt he), hj]
      · rw [hchunks]
        exact s.jsChunks.keys_update_getElem? _ _ hkey
    · cases hjs.1.symm.trans hjs'.1
      refine ⟨_, Function.update_self .., ?_⟩
      apply ArrayMap.keys_idxOf
      rw [hchunks]
      exact (s.jsChunks.mem_keys_put _ _ _).mpr (.inl rfl)
  · intro e j hj
    rw [hidx] at hj
    by_cases he : e = k
    · subst he
      exact ⟨i, Nat.lt_succ_self e, hjs⟩
    · rw [Function.update_of_ne he] at hj
      obtain ⟨i', he, hjs'⟩ := h.entry e j hj
      exact ⟨i', he.trans (Nat.lt_succ_self k), hjs'⟩

theorem addEntryPoints_entered (hown : ∀ e i, l.entryPoints[e]? = some i → e ∈ b i) :
    l.Entered b l.entryPoints.length (l.addEntryPoints b) := by
  apply Loop.foldl_zipIdx l.entryPoints (l.Entered b)
  · intro k i hentry s h
    have hbits : Function.update s.entryBits i (insert k (s.entryBits i)) = b := by
      rw [h.bits, update_bit (hown k i hentry)]
    rw [addEntryPoint, hbits]
    cases hcss : l.hasCss i with
    | true => exact h.css hentry hcss rfl rfl rfl
    | false => exact h.js ⟨hentry, hcss⟩ rfl rfl rfl
  · exact ⟨rfl, nofun, fun e i he => absurd he (Nat.not_lt_zero e), nofun⟩

/-! ### The files -/

theorem mem_addFile (c : Chunk) (i f : Nat) :
    f ∈ (c.addFile i).filesWithPartsInChunk.keys ↔ f = i ∨ f ∈ c.filesWithPartsInChunk.keys :=
  c.filesWithPartsInChunk.mem_keys_update i f _

theorem sharedChunk_some (entryBits : Finset Nat) (i : Nat) (c : Chunk) :
    (l.sharedChunk entryBits i (some c)).entryBits = c.entryBits ∧
      (l.sharedChunk entryBits i (some c)).entryPoint = c.entryPoint ∧
      (l.sharedChunk entryBits i (some c)).filesWithPartsInChunk = c.filesWithPartsInChunk := by
  rw [sharedChunk]
  split <;> exact ⟨rfl, rfl, rfl⟩

/-- A file that is in a JavaScript chunk. -/
def HasParts (l : Linker) (f : Nat) : Prop := f ∈ l.filesLive ∧ l.hasCss f = false

/-- With code splitting, after some of the files. -/
structure Shared (l : Linker) (s : Chunks) (files : List Nat) (m : ArrayMap ChunkKey Chunk) : Prop where
  chunks : ∀ key c, m.get? key = some c → key.notHtml = none ∧ c.entryBits = key.entryBits ∧
    ∀ f, f ∈ c.filesWithPartsInChunk.keys ↔ f ∈ files ∧ l.HasParts f ∧ s.entryBits f = key.entryBits
  placed : ∀ f ∈ files, l.HasParts f → ∃ c, m.get? ⟨none, s.entryBits f⟩ = some c
  kept : ∀ key c₀, s.jsChunks.get? key = some c₀ → ∃ c, m.get? key = some c ∧ c.entryPoint = c₀.entryPoint

theorem shared_addFile (hsplitting : l.codeSplitting = true) {files : List Nat} {m : ArrayMap ChunkKey Chunk}
    (h : Shared l s files m) (i : Nat) : Shared l s (files ++ [i]) (l.addFile s m i) := by
  have hmem : ∀ f, f ∈ files ++ [i] ↔ f ∈ files ∨ f = i := by simp
  by_cases hparts : l.HasParts i
  · have hm : l.addFile s m i = m.update ⟨none, s.entryBits i⟩ fun c => (l.sharedChunk (s.entryBits i) i c).addFile i := by
      have hif : i ∈ l.filesLive ∧ l.hasCss i = false := hparts
      rw [addFile, if_pos hif, hsplitting, if_pos rfl]
    rw [hm]
    refine ⟨?_, ?_, ?_⟩
    · intro key c hc
      rw [ArrayMap.get?_update] at hc
      split at hc
      · rename_i hkey
        subst hkey
        cases hc
        cases hget : m.get? ⟨none, s.entryBits i⟩ with
        | none =>
          refine ⟨rfl, rfl, fun f => ?_⟩
          rw [mem_addFile, hmem]
          constructor
          · rintro (rfl | hf)
            · exact ⟨.inr rfl, hparts, rfl⟩
            · cases hf
          · rintro ⟨hf | rfl, hparts, hbits⟩
            · obtain ⟨c, hc⟩ := h.placed f hf hparts
              rw [show s.entryBits f = s.entryBits i from hbits, hget] at hc
              cases hc
            · exact .inl rfl
        | some c =>
          obtain ⟨-, hbits, hfiles⟩ := h.chunks _ c hget
          obtain ⟨hb, -, hf⟩ := l.sharedChunk_some (s.entryBits i) i c
          refine ⟨rfl, hb.trans hbits, fun f => ?_⟩
          rw [mem_addFile, hf, hfiles, hmem]
          constructor
          · rintro (rfl | ⟨hf, hrest⟩)
            · exact ⟨.inr rfl, hparts, rfl⟩
            · exact ⟨.inl hf, hrest⟩
          · rintro ⟨hf | rfl, hrest⟩
            · exact .inr ⟨hf, hrest⟩
            · exact .inl rfl
      · rename_i hkey
        obtain ⟨hnone, hbits, hfiles⟩ := h.chunks key c hc
        refine ⟨hnone, hbits, fun f => ?_⟩
        rw [hfiles, hmem]
        constructor
        · rintro ⟨hf, hrest⟩
          exact ⟨.inl hf, hrest⟩
        · rintro ⟨hf | rfl, hrest⟩
          · exact ⟨hf, hrest⟩
          · refine absurd ?_ hkey
            rw [hrest.2, ← hnone]
    · intro f hf hparts
      rw [ArrayMap.get?_update]
      split
      · exact ⟨_, rfl⟩
      · rename_i hkey
        rcases (hmem f).mp hf with hf | rfl
        · exact h.placed f hf hparts
        · exact absurd rfl hkey
    · intro key c₀ hc₀
      obtain ⟨c, hc, hentry⟩ := h.kept key c₀ hc₀
      rw [ArrayMap.get?_update]
      split
      · rename_i hkey
        refine ⟨_, rfl, ?_⟩
        rw [← hkey, hc]
        exact (l.sharedChunk_some (s.entryBits i) i c).2.1.trans hentry
      · exact ⟨c, hc, hentry⟩
  · have hm : l.addFile s m i = m := if_neg hparts
    have hsame : ∀ f, f ∈ files ++ [i] ∧ l.HasParts f ↔ f ∈ files ∧ l.HasParts f := by
      intro f
      rw [hmem]
      constructor
      · rintro ⟨hf | rfl, hf'⟩
        · exact ⟨hf, hf'⟩
        · exact absurd hf' hparts
      · rintro ⟨hf, hf'⟩
        exact ⟨.inl hf, hf'⟩
    rw [hm]
    refine ⟨?_, fun f hf hf' => h.placed f ((hsame f).mp ⟨hf, hf'⟩).1 hf', h.kept⟩
    intro key c hc
    obtain ⟨hnone, hbits, hfiles⟩ := h.chunks key c hc
    refine ⟨hnone, hbits, fun f => ?_⟩
    rw [hfiles, ← and_assoc, ← and_assoc, hsame]

/-- The chunk found by this key is at the place of an entry point. -/
def PlaceOf (s : Chunks) (e : Nat) (key : ChunkKey) : Prop :=
  ∃ j, s.entryPointToJsChunkIdx e = some j ∧ s.jsChunks.keys[j]? = some key

/-- Without code splitting: every chunk is an entry point's, and its files are those of the bits it is the place of. -/
structure Listed (l : Linker) (s : Chunks) (files : List Nat) (m : ArrayMap ChunkKey Chunk) : Prop where
  keys : m.keys = s.jsChunks.keys
  chunks : ∀ key c, m.get? key = some c → ∃ c₀, s.jsChunks.get? key = some c₀ ∧ c.entryPoint = c₀.entryPoint ∧
    ∀ f, f ∈ c.filesWithPartsInChunk.keys ↔ f ∈ c₀.filesWithPartsInChunk.keys ∨ f ∈ files ∧ l.HasParts f ∧
      ∃ e < l.entryPoints.length, e ∈ s.entryBits f ∧ PlaceOf s e key

section
variable (hplaces : ∀ e j, s.entryPointToJsChunkIdx e = some j → ∃ key, s.jsChunks.keys[j]? = some key)
include hplaces

variable {m : ArrayMap ChunkKey Chunk}

theorem addToEntryPoint_spec (hkeys : m.keys = s.jsChunks.keys) (i e : Nat) :
    (addToEntryPoint s i m e).keys = s.jsChunks.keys ∧ ∀ key c, (addToEntryPoint s i m e).get? key = some c →
      ∃ c₀, m.get? key = some c₀ ∧ c.entryPoint = c₀.entryPoint ∧
        ∀ f, f ∈ c.filesWithPartsInChunk.keys ↔ f ∈ c₀.filesWithPartsInChunk.keys ∨ f = i ∧ PlaceOf s e key := by
  rw [addToEntryPoint]
  split
  · rename_i hnone
    refine ⟨hkeys, fun key c hc => ⟨c, hc, rfl, fun f => ?_⟩⟩
    simp [PlaceOf, hnone]
  · rename_i j hj
    obtain ⟨key₀, hkey₀⟩ := hplaces e j hj
    refine ⟨(m.keys_modifyAt j _).trans hkeys, fun key c hc => ?_⟩
    rw [m.get?_modifyAt (hkeys ▸ hkey₀)] at hc
    split at hc
    · rename_i hkey
      subst hkey
      obtain ⟨c₀, hc₀, rfl⟩ := Option.map_eq_some_iff.mp hc
      refine ⟨c₀, hc₀, rfl, fun f => ?_⟩
      rw [mem_addFile, or_comm]
      simp [PlaceOf, hj, hkey₀]
    · rename_i hkey
      refine ⟨c, hc, rfl, fun f => ?_⟩
      simp [PlaceOf, hj, hkey₀, Ne.symm hkey]

theorem addToEntryPoints_spec (i : Nat) (es : List Nat) (hkeys : m.keys = s.jsChunks.keys) :
    (es.foldl (addToEntryPoint s i) m).keys = s.jsChunks.keys ∧
      ∀ key c, (es.foldl (addToEntryPoint s i) m).get? key = some c →
        ∃ c₀, m.get? key = some c₀ ∧ c.entryPoint = c₀.entryPoint ∧ ∀ f, f ∈ c.filesWithPartsInChunk.keys ↔
          f ∈ c₀.filesWithPartsInChunk.keys ∨ f = i ∧ ∃ e ∈ es, PlaceOf s e key := by
  induction es generalizing m with
  | nil => exact ⟨hkeys, fun key c hc => ⟨c, hc, rfl, fun f => by simp⟩⟩
  | cons e es ih =>
    obtain ⟨hkeys₁, hstep⟩ := addToEntryPoint_spec hplaces hkeys i e
    obtain ⟨hkeys', hrest⟩ := ih hkeys₁
    refine ⟨hkeys', fun key c hc => ?_⟩
    obtain ⟨c₁, hc₁, hentry₁, hfiles₁⟩ := hrest key c hc
    obtain ⟨c₀, hc₀, hentry₀, hfiles₀⟩ := hstep key c₁ hc₁
    refine ⟨c₀, hc₀, hentry₁.trans hentry₀, fun f => ?_⟩
    simp only [hfiles₁, hfiles₀, List.mem_cons, exists_eq_or_imp]
    tauto

theorem listed_addFile (hsplitting : l.codeSplitting = false) {files : List Nat}
    (h : Listed l s files m) (i : Nat) : Listed l s (files ++ [i]) (l.addFile s m i) := by
  by_cases hparts : l.HasParts i
  · have hm : l.addFile s m i =
        ((List.range l.entryPoints.length).filter (· ∈ s.entryBits i)).foldl (addToEntryPoint s i) m := by
      have hif : i ∈ l.filesLive ∧ l.hasCss i = false := hparts
      rw [addFile, if_pos hif, hsplitting]
      rfl
    obtain ⟨hkeys, hchunks⟩ := addToEntryPoints_spec hplaces i
      ((List.range l.entryPoints.length).filter (· ∈ s.entryBits i)) h.keys
    rw [hm]
    refine ⟨hkeys, fun key c hc => ?_⟩
    obtain ⟨c₁, hc₁, hentry₁, hfiles₁⟩ := hchunks key c hc
    obtain ⟨c₀, hc₀, hentry₀, hfiles₀⟩ := h.chunks key c₁ hc₁
    refine ⟨c₀, hc₀, hentry₁.trans hentry₀, fun f => ?_⟩
    rw [hfiles₁, hfiles₀]
    simp only [List.mem_append, List.mem_singleton, List.mem_filter, List.mem_range, decide_eq_true_eq]
    constructor
    · rintro ((hf | ⟨hf, hrest⟩) | ⟨rfl, e, ⟨he, hbit⟩, hplace⟩)
      · exact .inl hf
      · exact .inr ⟨.inl hf, hrest⟩
      · exact .inr ⟨.inr rfl, hparts, e, he, hbit, hplace⟩
    · rintro (hf | ⟨hf | rfl, hparts, e, he, hbit, hplace⟩)
      · exact .inl (.inl hf)
      · exact .inl (.inr ⟨hf, hparts, e, he, hbit, hplace⟩)
      · exact .inr ⟨rfl, e, ⟨he, hbit⟩, hplace⟩
  · have hm : l.addFile s m i = m := if_neg hparts
    rw [hm]
    refine ⟨h.keys, fun key c hc => ?_⟩
    obtain ⟨c₀, hc₀, hentry₀, hfiles₀⟩ := h.chunks key c hc
    refine ⟨c₀, hc₀, hentry₀, fun f => ?_⟩
    rw [hfiles₀, List.mem_append, List.mem_singleton]
    constructor
    · rintro (hf | ⟨hf, hrest⟩)
      · exact .inl hf
      · exact .inr ⟨.inl hf, hrest⟩
    · rintro (hf | ⟨hf | rfl, hrest⟩)
      · exact .inl hf
      · exact .inr ⟨hf, hrest⟩
      · exact absurd hrest.1 hparts

end

/-! ### The chunks -/

/-- Two files that reach each other. -/
def ReachEachOther (l : Linker) (i j : Nat) : Prop := l.Reaches i j ∧ l.Reaches j i

/-- What the chunks are. `chunkOf` is the chunk whose place was noted for an entry point; its own chunk has the
entry point as `entryPoint`. -/
structure Assigned (l : Linker) (s : Chunks) : Prop where
  bits : ∀ e f, e ∈ s.entryBits f ↔ ∃ i, l.entryPoints[e]? = some i ∧ l.Reaches i f
  once : l.codeSplitting = true → (∃ e i, l.JsEntry e i) → ∀ f, l.HasParts f →
    ∃ key c, s.jsChunks.get? key = some c ∧ f ∈ c.filesWithPartsInChunk.keys ∧ c.entryBits = s.entryBits f ∧
      ∀ key' c', s.jsChunks.get? key' = some c' → f ∈ c'.filesWithPartsInChunk.keys → key' = key
  entries : l.codeSplitting = false → ∀ e i, l.JsEntry e i → ∃ j key c, s.entryPointToJsChunkIdx e = some j ∧
    s.jsChunks.entries[j]? = some (key, c) ∧ ∀ f, l.HasParts f → (f ∈ c.filesWithPartsInChunk.keys ↔ e ∈ s.entryBits f)
  own : ∀ e i, l.JsEntry e i → (l.codeSplitting = false → ∀ e' i', e < e' → l.JsEntry e' i' →
      l.loaderIsHtml i' = l.loaderIsHtml i → ¬ l.ReachEachOther i i') →
    ∃ key c, s.jsChunks.get? key = some c ∧ c.entryPoint = ⟨i, e, true⟩

theorem addFiles_shared (hsplitting : l.codeSplitting = true) (hentered : l.Entered b l.entryPoints.length s) (files : List Nat) :
    Shared l s files (files.foldl (l.addFile s) s.jsChunks) := by
  induction files using List.reverseRecOn with
  | nil =>
    refine ⟨fun key c hc => ?_, nofun, fun key c hc => ⟨c, hc, rfl⟩⟩
    obtain ⟨e, i, -, -, hkey, rfl, -⟩ := hentered.found key c hc
    rw [chunkKey, hsplitting, if_pos rfl] at hkey
    subst hkey
    refine ⟨rfl, rfl, fun f => ?_⟩
    simp [entryChunk, ArrayMap.keys, ArrayMap.empty]
  | append_singleton files i ih =>
    rw [List.foldl_append]
    exact shared_addFile hsplitting ih i

theorem addFiles_listed (hsplitting : l.codeSplitting = false) (hentered : l.Entered b l.entryPoints.length s) (files : List Nat) :
    Listed l s files (files.foldl (l.addFile s) s.jsChunks) := by
  induction files using List.reverseRecOn with
  | nil => exact ⟨rfl, fun key c hc => ⟨c, hc, rfl, fun f => by simp⟩⟩
  | append_singleton files i ih =>
    rw [List.foldl_append]
    apply listed_addFile _ hsplitting ih
    intro e j hj
    obtain ⟨i', he, hjs⟩ := hentered.entry e j hj
    obtain ⟨j', hj', hkey⟩ := hentered.placed e i' he hjs
    cases hj.symm.trans hj'
    exact ⟨_, hkey⟩

variable {e i : Nat}

/-- The chunk of the last entry point with a key. -/
theorem Entered.exists_last (h : l.Entered b k s) (he : e < k) (hjs : l.JsEntry e i) :
    ∃ e' i' c, e ≤ e' ∧ l.JsEntry e' i' ∧ l.chunkKey b i' e' = l.chunkKey b i e ∧
      s.jsChunks.get? (l.chunkKey b i e) = some c ∧ c = l.entryChunk i' e' := by
  obtain ⟨j, -, hkey⟩ := h.placed e i he hjs
  obtain ⟨c, hc⟩ := s.jsChunks.mem_keys.mp (List.mem_of_getElem? hkey)
  obtain ⟨e', i', he', hjs', hkey', hchunk, hlast⟩ := h.found _ c hc
  refine ⟨e', i', c, Nat.le_of_not_lt fun hlt => ?_, hjs', hkey', hc, hchunk⟩
  exact hlast e i hlt he hjs rfl

/-- The bits that reachability gives. -/
def BitsOf (l : Linker) (b : Nat → Finset Nat) : Prop :=
  ∀ e f, e ∈ b f ↔ ∃ i, l.entryPoints[e]? = some i ∧ l.Reaches i f

theorem BitsOf.mem_iff (h : l.BitsOf b) {e f : Nat} (hentry : l.entryPoints[e]? = some i) : e ∈ b f ↔ l.Reaches i f := by
  rw [h]
  constructor
  · rintro ⟨i', hentry', hreaches⟩
    cases hentry.symm.trans hentry'
    exact hreaches
  · exact fun hreaches => ⟨i, hentry, hreaches⟩

theorem BitsOf.own (h : l.BitsOf b) (hentry : l.entryPoints[e]? = some i) : e ∈ b i :=
  (h.mem_iff hentry).mpr .refl

/-- Entry points whose files have the same bits reach each other. -/
theorem BitsOf.reachEachOther (h : l.BitsOf b) {e e' i i' : Nat} (hentry : l.entryPoints[e]? = some i)
    (hentry' : l.entryPoints[e']? = some i') (heq : b i' = b i) : l.ReachEachOther i i' :=
  ⟨(h.mem_iff hentry).mp (heq ▸ h.own hentry), (h.mem_iff hentry').mp (heq ▸ h.own hentry')⟩

theorem BitsOf.entered (h : l.BitsOf b) : l.Entered b l.entryPoints.length (l.addEntryPoints b) :=
  addEntryPoints_entered fun _ _ hentry => h.own hentry

theorem computeChunks_jsChunks (hentered : l.Entered b l.entryPoints.length (l.addEntryPoints b))
    (hjs : l.JsEntry e i) : (l.computeChunks b).jsChunks =
      l.reachableFiles.foldl (l.addFile (l.addEntryPoints b)) (l.addEntryPoints b).jsChunks := by
  obtain ⟨j, -, hkey⟩ := hentered.placed e i (List.getElem?_eq_some_iff.mp hjs.1).choose hjs
  have hlength : 0 < (l.addEntryPoints b).jsChunks.entries.length := by
    obtain ⟨hj, -⟩ := List.getElem?_eq_some_iff.mp hkey
    rw [ArrayMap.keys, List.length_map] at hj
    omega
  rw [computeChunks, if_pos hlength]

theorem computeChunks_rest (b : Nat → Finset Nat) : (l.computeChunks b).entryBits = (l.addEntryPoints b).entryBits ∧
    (l.computeChunks b).entryPointToJsChunkIdx = (l.addEntryPoints b).entryPointToJsChunkIdx := by
  rw [computeChunks]
  split <;> exact ⟨rfl, rfl⟩

theorem bits_of_chunkKey (hsplitting : l.codeSplitting = false) {e e' i i' : Nat}
    (h : l.chunkKey b i' e' = l.chunkKey b i e) : l.loaderIsHtml i' = l.loaderIsHtml i ∧ b i' = b i := by
  rw [chunkKey, chunkKey, hsplitting] at h
  simpa using h

theorem once (hbits : l.BitsOf b) (hsplitting : l.codeSplitting = true) (hjs : l.JsEntry e i) {f : Nat}
    (hparts : l.HasParts f) : ∃ key c, (l.computeChunks b).jsChunks.get? key = some c ∧
      f ∈ c.filesWithPartsInChunk.keys ∧ c.entryBits = (l.computeChunks b).entryBits f ∧
        ∀ key' c', (l.computeChunks b).jsChunks.get? key' = some c' → f ∈ c'.filesWithPartsInChunk.keys → key' = key := by
  have hentered := hbits.entered
  have hshared := addFiles_shared hsplitting hentered l.reachableFiles
  have hf := l.filesLive_reachable f hparts.1
  rw [computeChunks_jsChunks hentered hjs, (computeChunks_rest b).1]
  obtain ⟨c, hc⟩ := hshared.placed f hf hparts
  obtain ⟨-, hcbits, hfiles⟩ := hshared.chunks _ c hc
  refine ⟨_, c, hc, (hfiles f).mpr ⟨hf, hparts, rfl⟩, hcbits, ?_⟩
  intro key' c' hc' hmem
  obtain ⟨hnone, -, hfiles'⟩ := hshared.chunks key' c' hc'
  rw [((hfiles' f).mp hmem).2.2, ← hnone]

theorem entries (hbits : l.BitsOf b) (hsplitting : l.codeSplitting = false) (hjs : l.JsEntry e i) :
    ∃ j key c, (l.computeChunks b).entryPointToJsChunkIdx e = some j ∧
      (l.computeChunks b).jsChunks.entries[j]? = some (key, c) ∧
        ∀ f, l.HasParts f → (f ∈ c.filesWithPartsInChunk.keys ↔ e ∈ (l.computeChunks b).entryBits f) := by
  have hentered := hbits.entered
  have hlisted := addFiles_listed hsplitting hentered l.reachableFiles
  have he : e < l.entryPoints.length := (List.getElem?_eq_some_iff.mp hjs.1).choose
  rw [computeChunks_jsChunks hentered hjs, (computeChunks_rest b).1, (computeChunks_rest b).2, hentered.bits]
  obtain ⟨j, hj, hkey⟩ := hentered.placed e i he hjs
  have hkey' := hkey
  rw [← hlisted.keys, ArrayMap.keys, List.getElem?_map] at hkey'
  obtain ⟨⟨key, c⟩, hentries, rfl⟩ := Option.map_eq_some_iff.mp hkey'
  refine ⟨j, _, c, hj, hentries, fun f hparts => ?_⟩
  obtain ⟨c₀, hc₀, -, hfiles⟩ := hlisted.chunks _ c ((ArrayMap.get?_eq_some _).mpr (List.mem_of_getElem? hentries))
  have hnone : f ∉ c₀.filesWithPartsInChunk.keys := by
    obtain ⟨e₀, i₀, -, -, -, hchunk, -⟩ := hentered.found _ c₀ hc₀
    rw [hchunk]
    exact List.not_mem_nil
  rw [hfiles, hentered.bits]
  constructor
  · rintro (hf | ⟨-, -, e', -, hbit, j', hj', hkey'⟩)
    · exact absurd hf hnone
    · -- an entry point with the same chunk reaches this one, and is reached by it
      obtain ⟨i', he', hjs'⟩ := hentered.entry e' j' hj'
      obtain ⟨j'', hj'', hkey''⟩ := hentered.placed e' i' he' hjs'
      cases hj'.symm.trans hj''
      have hkeys : l.chunkKey b i' e' = l.chunkKey b i e := Option.some.inj (hkey''.symm.trans hkey')
      have hreach := hbits.reachEachOther hjs.1 hjs'.1 (bits_of_chunkKey hsplitting hkeys).2
      exact (hbits.mem_iff hjs.1).mpr (hreach.1.trans ((hbits.mem_iff hjs'.1).mp hbit))
  · exact fun hbit => .inr ⟨l.filesLive_reachable f hparts.1, hparts, e, he, hbit, j, hj, hkey⟩

/-- **Every file is in its chunks, and every entry point has one**, whatever the graph. -/
theorem link_assigns (l : Linker) {fuel : Nat} (hfuel : l.graph.files.length < fuel) :
    ∃ s, l.link fuel = some s ∧ Assigned l s := by
  obtain ⟨columns, hcolumns, hbits⟩ := l.markEntryPointsReachable_spec hfuel
  have hbits : l.BitsOf columns.entryBits := hbits
  have hentered := hbits.entered
  refine ⟨l.computeChunks columns.entryBits, ?_, ?_, ?_, ?_, ?_⟩
  · rw [link, hcolumns]
    rfl
  · rw [(computeChunks_rest _).1, hentered.bits]
    exact hbits
  · rintro hsplitting ⟨e, i, hjs⟩ f hparts
    exact once hbits hsplitting hjs hparts
  · exact fun hsplitting e i hjs => entries hbits hsplitting hjs
  · intro e i hjs halone
    have he : e < l.entryPoints.length := (List.getElem?_eq_some_iff.mp hjs.1).choose
    obtain ⟨e', i', c, hle, hjs', hkey, hc, rfl⟩ := hentered.exists_last he hjs
    have hsame : e' = e := by
      cases hsplitting : l.codeSplitting with
      | true =>
        rw [chunkKey, chunkKey, hsplitting, if_pos rfl, if_pos rfl] at hkey
        simpa using hkey
      | false =>
        obtain ⟨hhtml, hb⟩ := bits_of_chunkKey hsplitting hkey
        by_contra hne
        have hlt : e < e' := Nat.lt_of_le_of_ne hle (Ne.symm hne)
        exact halone hsplitting e' i' hlt hjs' hhtml (hbits.reachEachOther hjs.1 hjs'.1 hb)
    subst hsame
    cases hjs.1.symm.trans hjs'.1
    rw [computeChunks_jsChunks hentered hjs]
    cases hsplitting : l.codeSplitting with
    | true =>
      obtain ⟨c, hc', hentry⟩ := (addFiles_shared hsplitting hentered l.reachableFiles).kept _ _ hc
      exact ⟨_, c, hc', hentry⟩
    | false =>
      have hlisted := addFiles_listed hsplitting hentered l.reachableFiles
      obtain ⟨c, hc'⟩ := ((l.reachableFiles.foldl (l.addFile (l.addEntryPoints columns.entryBits))
        (l.addEntryPoints columns.entryBits).jsChunks).mem_keys).mp
          (hlisted.keys ▸ (ArrayMap.mem_keys _).mpr ⟨_, hc⟩)
      obtain ⟨c₀, hc₀, hentry, -⟩ := hlisted.chunks _ c hc'
      cases hc.symm.trans hc₀
      exact ⟨_, c, hc', hentry⟩

/-! A style sheet that shows an image, and two entry points that import each other. -/

def exampleFile (hasCss : Bool) (entryPointKind : TreeShaking.EntryPointKind) (imports : List Nat) : TreeShaking.File where
  parts := []
  importRecords := imports.map fun i => ⟨if hasCss then .url else .stmt, some i, false⟩
  hasCss := hasCss
  loaderIsHtml := false
  sideEffects := .hasSideEffects
  entryPointKind := entryPointKind
  wrap := .none

def styleSheetLinker : Linker :=
  .shaken ⟨[exampleFile true .userSpecified [1], exampleFile false .none []], ⟨true, false⟩, by simp [exampleFile],
    by simp [exampleFile], by simp [exampleFile]⟩ true [0] [1, 0] (by decide) 4 ⟨{1, 0}, ∅⟩ rfl (by decide)

def cycleLinker : Linker :=
  .shaken ⟨[exampleFile false .userSpecified [1], exampleFile false .userSpecified [0]], ⟨true, false⟩,
    by simp [exampleFile], by simp [exampleFile], by simp [exampleFile]⟩ false [0, 1] [1, 0] (by decide) 4 ⟨{1, 0}, ∅⟩
    rfl (by decide)

theorem link_assigns_cycle : ∃ s, cycleLinker.link 3 = some s ∧ Assigned cycleLinker s :=
  link_assigns cycleLinker (by decide)

/-- The image is in no chunk, since there is none; and the chunk of the first entry point becomes the second one's. -/
theorem link_misses_image :
    (styleSheetLinker.HasParts 1 ∧ ∃ s, styleSheetLinker.link 3 = some s ∧
      ∀ e ∈ s.jsChunks.entries, 1 ∉ e.2.filesWithPartsInChunk.keys) ∧
    cycleLinker.JsEntry 0 0 ∧ ∃ s, cycleLinker.link 3 = some s ∧
      ∀ e ∈ s.jsChunks.entries, e.2.entryPoint ≠ ⟨0, 0, true⟩ :=
  ⟨⟨⟨by decide, by decide⟩, _, rfl, by decide⟩, ⟨by decide, by decide⟩, _, rfl, by decide⟩

end Linker

end Funbun.Bundler.CodeSplitting
