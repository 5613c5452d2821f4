import Funbun.Bundler.ChunkOrderProofs

/-! Which chunk comes first. -/
namespace Funbun.Bundler.CodeSplitting
open Library Sorting

namespace Linker
variable {l : Linker} {ι : Type} {y : StyleSheets ι} {b : Nat → Finset Nat} {i : Nat}

/-! ### The chunks of scripts, with style sheets or without -/

theorem toChunks_addStyledEntryPoint (s : StyledChunks ι) (entry : Nat × Nat) :
    (l.addStyledEntryPoint y s entry).toChunks = l.addEntryPoint s.toChunks entry := by
  rw [addStyledEntryPoint]
  dsimp only
  split
  · rfl
  · split <;> rfl

theorem toChunks_addStyledEntryPoints (b : Nat → Finset Nat) :
    (l.addStyledEntryPoints y b).toChunks = l.addEntryPoints b := by
  rw [addStyledEntryPoints, addEntryPoints]
  generalize l.entryPoints.zipIdx = entries
  suffices h : ∀ s : StyledChunks ι, (entries.foldl (l.addStyledEntryPoint y) s).toChunks =
      entries.foldl l.addEntryPoint s.toChunks from h _
  intro s
  induction entries generalizing s with
  | nil => rfl
  | cons entry entries ih => rw [List.foldl_cons, List.foldl_cons, ih, toChunks_addStyledEntryPoint]

theorem toChunks_computeStyledChunks (b : Nat → Finset Nat) :
    (l.computeStyledChunks y b).toChunks = l.computeChunks b := by
  rw [computeStyledChunks, computeChunks, ← toChunks_addStyledEntryPoints (y := y)]
  split <;> rfl

/-! What a chunk is for -/

/-- The entry point of the chunk with a key, and whether it is an HTML file -/
def traits (m : ArrayMap ChunkKey Chunk) (key : ChunkKey) : Option (EntryPoint × Bool) :=
  (m.get? key).map fun c => (c.entryPoint, c.hasHtmlChunk)

variable {m : ArrayMap ChunkKey Chunk} {key : ChunkKey} {k : Nat} {s : StyledChunks ι}

theorem mem_keys_iff_traits :
    key ∈ m.keys ↔ ∃ t, traits m key = some t := by
  rw [m.mem_keys]
  constructor
  · rintro ⟨c, hc⟩
    exact ⟨_, by rw [traits, hc]; rfl⟩
  · rintro ⟨t, ht⟩
    obtain ⟨c, hc, -⟩ := Option.map_eq_some_iff.mp ht
    exact ⟨c, hc⟩

/-- After some of the files -/
structure Grown (l : Linker) (s : Chunks) (m : ArrayMap ChunkKey Chunk) : Prop where
  kept : ∀ key t, traits s.jsChunks key = some t → traits m key = some t
  found : ∀ key t, traits m key = some t → traits s.jsChunks key = some t ∨
    l.codeSplitting = true ∧ (∃ f, l.HasParts f ∧ key = ⟨none, s.entryBits f⟩) ∧ t.1.entryPointId = 0 ∧
      t.1.isEntryPoint = false

theorem traits_addToEntryPoints (s : Chunks) (i : Nat) (es : List Nat) (m : ArrayMap ChunkKey Chunk) :
    traits (es.foldl (addToEntryPoint s i) m) = traits m := by
  induction es generalizing m with
  | nil => rfl
  | cons e es ih =>
    rw [List.foldl_cons, ih]
    funext key
    rw [addToEntryPoint]
    split
    · rfl
    · exact m.map_get?_modifyAt _ (f := (·.addFile i)) (fun _ => rfl) key

theorem grown_addFile {s : Chunks} (h : Grown l s m) (i : Nat) :
    Grown l s (l.addFile s m i) := by
  by_cases hparts : l.HasParts i
  · have hif : i ∈ l.filesLive ∧ l.hasCss i = false := hparts
    cases hsplitting : l.codeSplitting with
    | false =>
      have htraits : traits (l.addFile s m i) = traits m := by
        rw [addFile, if_pos hif, hsplitting]
        exact traits_addToEntryPoints ..
      exact ⟨fun key t ht => htraits ▸ h.kept key t ht, fun key t ht => h.found key t (htraits ▸ ht)⟩
    | true =>
      have htraits (key : ChunkKey) : traits (l.addFile s m i) key =
          if key = ⟨none, s.entryBits i⟩ then some ((traits m key).getD (⟨i, 0, false⟩, false)) else traits m key := by
        rw [addFile, if_pos hif, hsplitting, if_pos rfl, traits, ArrayMap.get?_update]
        split
        · next hkey =>
          rw [traits, hkey]
          cases hget : m.get? ⟨none, s.entryBits i⟩ with
          | none => rfl
          | some c =>
            rw [sharedChunk]
            split <;> rfl
        · rfl
      constructor
      · intro key t ht
        have hm := h.kept key t ht
        rw [htraits, hm]
        split <;> rfl
      · intro key t ht
        rw [htraits] at ht
        split at ht
        · next hkey =>
          cases hm : traits m key with
          | some t' =>
            rw [hm] at ht
            obtain rfl := Option.some.inj ht
            exact hsplitting ▸ h.found key t' hm
          | none =>
            rw [hm] at ht
            obtain rfl := Option.some.inj ht
            exact .inr ⟨hsplitting, ⟨i, hparts, hkey⟩, rfl, rfl⟩
        · exact h.found key t ht
  · rwa [show l.addFile s m i = m from if_neg hparts]

theorem grown_addFiles (s : Chunks) (files : List Nat) : Grown l s (files.foldl (l.addFile s) s.jsChunks) := by
  induction files using List.reverseRecOn with
  | nil => exact ⟨fun _ _ ht => ht, fun _ _ ht => .inl ht⟩
  | append_singleton files i ih =>
    rw [List.foldl_append]
    exact grown_addFile ih i

/-- The scripts' chunks, as `compute_chunks` leaves them -/
structure Found (l : Linker) (b : Nat → Finset Nat) (m : ArrayMap ChunkKey Chunk) : Prop where
  own : ∀ e i, l.JsEntry e i → ∃ e' i', e ≤ e' ∧ l.JsEntry e' i' ∧ l.chunkKey b i' e' = l.chunkKey b i e ∧
    traits m (l.chunkKey b i e) = some (⟨i', e', true⟩, l.loaderIsHtml i')
  found : ∀ key t, traits m key = some t →
    (∃ e i, l.JsEntry e i ∧ l.chunkKey b i e = key ∧ t = (⟨i, e, true⟩, l.loaderIsHtml i) ∧
      ∀ e' i', e < e' → l.JsEntry e' i' → l.chunkKey b i' e' ≠ key) ∨
    l.codeSplitting = true ∧ (∃ f, l.HasParts f ∧ key = ⟨none, b f⟩) ∧ t.1.entryPointId = 0 ∧ t.1.isEntryPoint = false
  shared : l.codeSplitting = true → (∃ e i, l.JsEntry e i) → ∀ f, l.HasParts f → ⟨none, b f⟩ ∈ m.keys
  nothing : (¬∃ e i, l.JsEntry e i) → m.keys = []

theorem computeChunks_found (hbits : l.BitsOf b) : Found l b (l.computeChunks b).jsChunks := by
  have hentered := hbits.entered
  have hgrown : Grown l (l.addEntryPoints b) (l.computeChunks b).jsChunks := by
    rw [computeChunks]
    split
    · exact grown_addFiles _ _
    · exact ⟨fun _ _ ht => ht, fun _ _ ht => .inl ht⟩
  constructor
  · intro e i hjs
    have he : e < l.entryPoints.length := (List.getElem?_eq_some_iff.mp hjs.1).choose
    obtain ⟨e', i', c, hle, hjs', hkey, hc, rfl⟩ := hentered.exists_last he hjs
    refine ⟨e', i', hle, hjs', hkey, hgrown.kept _ _ ?_⟩
    rw [traits, hc]
    rfl
  · intro key t ht
    rcases hgrown.found key t ht with ht | ⟨hsplitting, ⟨f, hparts, hkey⟩, hid⟩
    · obtain ⟨c, hc, rfl⟩ := Option.map_eq_some_iff.mp ht
      obtain ⟨e, i, -, hjs, hkey, rfl, hlast⟩ := hentered.found key c hc
      refine .inl ⟨e, i, hjs, hkey, rfl, fun e' i' hlt hjs' => hlast e' i' hlt ?_ hjs'⟩
      exact (List.getElem?_eq_some_iff.mp hjs'.1).choose
    · rw [hentered.bits] at hkey
      exact .inr ⟨hsplitting, ⟨f, hparts, hkey⟩, hid⟩
  · rintro hsplitting ⟨e, i, hjs⟩ f hparts
    obtain ⟨c, hc⟩ := (addFiles_shared hsplitting hentered l.reachableFiles).placed f (l.filesLive_reachable f hparts.1) hparts
    rw [hentered.bits] at hc
    rw [computeChunks_jsChunks hentered hjs, ArrayMap.mem_keys]
    exact ⟨c, hc⟩
  · intro hnone
    have hkeys : (l.addEntryPoints b).jsChunks.entries = [] := by
      refine List.eq_nil_iff_forall_not_mem.mpr fun e he => ?_
      obtain ⟨e', i, -, hjs, -⟩ := hentered.found e.1 e.2 ((ArrayMap.get?_eq_some _).mpr he)
      exact hnone ⟨e', i, hjs⟩
    have hlength : ¬ 0 < (l.addEntryPoints b).jsChunks.entries.length := by
      rw [hkeys]
      exact Nat.lt_irrefl 0
    rw [computeChunks, if_neg hlength, ArrayMap.keys, hkeys]
    rfl

/-! HTML chunks and style sheets -/

variable (l y b) in
/-- The hash of an entry point that is a style sheet -/
def cssHash (i : Nat) : UInt64 :=
  if y.cssChunking then y.hashOrder (y.findImportedFilesInCssOrder [i]) else y.hash (l.entryBitsBytes (b i))

/-- After the first `k` entry points -/
structure Styled (l : Linker) (y : StyleSheets ι) (b : Nat → Finset Nat) (k : Nat) (s : StyledChunks ι) : Prop where
  bits : s.entryBits = b
  html : ∀ key html, s.htmlChunks.get? key = some html → ∃ e i, l.entryPoints[e]? = some i ∧ l.loaderIsHtml i = true ∧
    l.chunkKey b i e = key
  css : ∀ key, ∀ idx ∈ s.cssChunksOf key, idx < s.cssChunks.keys.length
  hashed : ∀ e i, e < k → l.entryPoints[e]? = some i → l.hasCss i = true → l.cssHash y b i ∈ s.cssChunks.keys
  /-- Where all are style sheets, a chunk is that of the first one with its hash. -/
  first : (∀ i ∈ l.entryPoints, l.hasCss i = true) → ∀ hash c, s.cssChunks.get? hash = some c →
    ∃ e i, e < k ∧ l.entryPoints[e]? = some i ∧ c.entryPoint = ⟨i, e, true⟩ ∧ l.cssHash y b i = hash ∧
      ∀ e' i', e' < e → l.entryPoints[e']? = some i' → l.cssHash y b i' ≠ hash

theorem html_addEntryPoint {s : Chunks} (hbits : s.entryBits = b) (hown : k ∈ b i) (hentry : l.entryPoints[k]? = some i)
    (h : ∀ key html, s.htmlChunks.get? key = some html → ∃ e i, l.entryPoints[e]? = some i ∧ l.loaderIsHtml i = true ∧
      l.chunkKey b i e = key) :
    (l.addEntryPoint s (i, k)).entryBits = b ∧
    ∀ key html, (l.addEntryPoint s (i, k)).htmlChunks.get? key = some html →
      ∃ e i, l.entryPoints[e]? = some i ∧ l.loaderIsHtml i = true ∧ l.chunkKey b i e = key := by
  have hupdate : Function.update s.entryBits i (insert k (s.entryBits i)) = b := by rw [hbits, update_bit hown]
  have hmap : ∀ key html, (if l.loaderIsHtml i = true then s.htmlChunks.getOrPut (l.chunkKey b i k) (l.htmlChunk i k)
      else s.htmlChunks).get? key = some html →
        ∃ e i, l.entryPoints[e]? = some i ∧ l.loaderIsHtml i = true ∧ l.chunkKey b i e = key := by
    intro key html hget
    split at hget
    case isFalse => exact h key html hget
    case isTrue hhtml =>
      rw [ArrayMap.getOrPut, ArrayMap.get?_update] at hget
      split at hget
      · next hkey => exact ⟨k, i, hentry, hhtml, hkey.symm⟩
      · exact h key html hget
  rw [addEntryPoint, hupdate]
  dsimp only
  split
  · exact ⟨rfl, hmap⟩
  · exact ⟨rfl, hmap⟩

theorem length_keys_update (m : ArrayMap UInt64 (CssChunk ι)) (key : UInt64) (f : Option (CssChunk ι) → CssChunk ι) :
    m.keys.length ≤ (m.update key f).keys.length := by
  show (m.entries.map Prod.fst).length ≤ ((ArrayMap.updateEntries key f m.entries).map Prod.fst).length
  rw [ArrayMap.keys_updateEntries]
  split <;> simp

theorem Styled.css_entry (h : Styled l y b k s) (hentry : l.entryPoints[k]? = some i)
    (hown : k ∈ b i) (hcss : l.hasCss i = true) : Styled l y b (k + 1) (l.addStyledEntryPoint y s (i, k)) := by
  obtain ⟨hbits, hhtml⟩ := html_addEntryPoint h.bits hown hentry h.html
  have hrun : ∃ c : CssChunk ι, c.entryPoint = ⟨i, k, true⟩ ∧ l.addStyledEntryPoint y s (i, k) =
      {s with toChunks := l.addEntryPoint s.toChunks (i, k), cssChunks := s.cssChunks.getOrPut (l.cssHash y b i) c} := by
    rw [addStyledEntryPoint]
    dsimp only
    rw [if_pos hcss, hbits]
    exact ⟨_, rfl, rfl⟩
  obtain ⟨c, hc, hrun⟩ := hrun
  rw [hrun]
  refine ⟨hbits, hhtml, ?_, ?_, ?_⟩
  · exact fun key idx hidx => (h.css key idx hidx).trans_le (length_keys_update ..)
  · intro e i' he hentry' hcss'
    refine (ArrayMap.mem_keys_update ..).mpr ?_
    rcases Nat.lt_succ_iff_lt_or_eq.mp he with he | rfl
    · exact .inr (h.hashed e i' he hentry' hcss')
    · rw [hentry] at hentry'
      exact .inl (Option.some.inj hentry' ▸ rfl)
  · intro hall hash c' hget
    have hbefore : s.cssChunks.get? hash = some c' → ∃ e i, e < k + 1 ∧ l.entryPoints[e]? = some i ∧
        c'.entryPoint = ⟨i, e, true⟩ ∧ l.cssHash y b i = hash ∧
        ∀ e' i', e' < e → l.entryPoints[e']? = some i' → l.cssHash y b i' ≠ hash := by
      intro hget
      obtain ⟨e, i', he, hrest⟩ := h.first hall hash c' hget
      exact ⟨e, i', he.trans (Nat.lt_succ_self k), hrest⟩
    rw [ArrayMap.getOrPut, ArrayMap.get?_update] at hget
    split at hget
    · next hhash =>
      subst hhash
      cases hold : s.cssChunks.get? (l.cssHash y b i) with
      | some c₀ =>
        rw [hold] at hget hbefore
        exact hbefore hget
      | none =>
        rw [hold] at hget
        obtain rfl := Option.some.inj hget
        refine ⟨k, i, Nat.lt_succ_self k, hentry, hc, rfl, fun e' i' he' hentry' heq => ?_⟩
        have hmem := h.hashed e' i' he' hentry' (hall i' (List.mem_of_getElem? hentry'))
        rw [heq, ArrayMap.mem_keys] at hmem
        obtain ⟨c₀, hc₀⟩ := hmem
        rw [hold] at hc₀
        cases hc₀
    · exact hbefore hget

theorem Styled.js_entry (h : Styled l y b k s) (hentry : l.entryPoints[k]? = some i)
    (hown : k ∈ b i) (hcss : l.hasCss i = false) : Styled l y b (k + 1) (l.addStyledEntryPoint y s (i, k)) := by
  obtain ⟨hbits, hhtml⟩ := html_addEntryPoint h.bits hown hentry h.html
  have hne : ¬ l.hasCss i = true := by simp [hcss]
  have hnot : ¬ ∀ i ∈ l.entryPoints, l.hasCss i = true := fun hall => hne (hall i (List.mem_of_getElem? hentry))
  have hupdate (m : ArrayMap UInt64 (CssChunk ι)) (hle : s.cssChunks.keys.length ≤ m.keys.length) (key : ChunkKey)
      (css : List Nat) (hcss : ∀ idx ∈ css, idx < m.keys.length) :
      ∀ key', ∀ idx ∈ Function.update s.cssChunksOf key css key', idx < m.keys.length := by
    intro key' idx hidx
    by_cases hkey : key' = key
    · rw [hkey, Function.update_self] at hidx
      exact hcss idx hidx
    · rw [Function.update_of_ne hkey] at hidx
      exact (h.css key' idx hidx).trans_le hle
  have hlast {e i' : Nat} (he : e < k + 1) (hentry' : l.entryPoints[e]? = some i') (hcss' : l.hasCss i' = true) : e < k := by
    refine (Nat.lt_succ_iff_lt_or_eq.mp he).resolve_right fun heq => ?_
    rw [heq, hentry] at hentry'
    exact hne (Option.some.inj hentry' ▸ hcss')
  rw [addStyledEntryPoint]
  dsimp only
  rw [if_neg hne]
  split
  · refine ⟨hbits, hhtml, hupdate s.cssChunks le_rfl _ _ (fun idx hidx => nomatch hidx), ?_, fun hall => absurd hall hnot⟩
    exact fun e i' he hentry' hcss' => h.hashed e i' (hlast he hentry' hcss') hentry' hcss'
  · refine ⟨hbits, hhtml, hupdate _ (length_keys_update ..) _ _ ?_, ?_, fun hall => absurd hall hnot⟩
    · intro idx hidx
      obtain rfl := List.mem_singleton.mp hidx
      exact List.idxOf_lt_length_of_mem ((ArrayMap.mem_keys_update ..).mpr (.inl rfl))
    · intro e i' he hentry' hcss'
      exact (ArrayMap.mem_keys_update ..).mpr (.inr (h.hashed e i' (hlast he hentry' hcss') hentry' hcss'))

theorem addStyledEntryPoints_styled (hbits : l.BitsOf b) : Styled l y b l.entryPoints.length (l.addStyledEntryPoints y b) := by
  apply Loop.foldl_zipIdx l.entryPoints (Styled l y b)
  · intro k i hentry s h
    cases hcss : l.hasCss i with
    | true => exact h.css_entry hentry (hbits.own hentry) hcss
    | false => exact h.js_entry hentry (hbits.own hentry) hcss
  · constructor
    · rfl
    · exact fun _ _ hget => nomatch hget
    · exact fun _ _ hidx => nomatch hidx
    · exact fun e i he => absurd he (Nat.not_lt_zero e)
    · exact fun _ _ _ hget => nomatch hget

theorem BitsOf.lt (hbits : l.BitsOf b) {e f : Nat} (he : e ∈ b f) : e < l.entryPoints.length := by
  obtain ⟨i, hentry, -⟩ := (hbits e f).mp he
  exact (List.getElem?_eq_some_iff.mp hentry).choose

theorem chunkKey_fits (hbits : l.BitsOf b) {e : Nat} (hentry : l.entryPoints[e]? = some i) :
    KeyFits l (l.chunkKey b i e) := by
  have he : e < l.entryPoints.length := (List.getElem?_eq_some_iff.mp hentry).choose
  cases hsplitting : l.codeSplitting with
  | true =>
    rw [chunkKey, if_pos hsplitting]
    refine ⟨hsplitting.symm, fun e' he' => ?_⟩
    rwa [Finset.mem_singleton.mp he']
  | false =>
    rw [chunkKey, if_neg (by simp [hsplitting])]
    exact ⟨hsplitting.symm, fun e' he' => hbits.lt he'⟩

/-- The maps of `compute_chunks` are as the order needs them. -/
theorem computeStyledChunks_made (hbits : l.BitsOf b) (hhtml : ∀ i, l.loaderIsHtml i = true → l.hasCss i = false) :
    Made l (l.computeStyledChunks y b) ∧ Found l b (l.computeStyledChunks y b).jsChunks := by
  have hstyled := addStyledEntryPoints_styled (y := y) hbits
  have hfound : Found l b (l.computeStyledChunks y b).jsChunks := by
    rw [toChunks_computeStyledChunks]
    exact computeChunks_found hbits
  have hrest : (l.computeStyledChunks y b).htmlChunks = (l.addStyledEntryPoints y b).htmlChunks ∧
      (l.computeStyledChunks y b).cssChunks = (l.addStyledEntryPoints y b).cssChunks ∧
      (l.computeStyledChunks y b).cssChunksOf = (l.addStyledEntryPoints y b).cssChunksOf := by
    rw [computeStyledChunks]
    split <;> exact ⟨rfl, rfl, rfl⟩
  refine ⟨⟨fun key hkey => ?_, fun key html hget => ?_, ?_⟩, hfound⟩
  · obtain ⟨t, ht⟩ := mem_keys_iff_traits.mp hkey
    rcases hfound.found key t ht with ⟨e, i, hjs, rfl, -⟩ | ⟨hsplitting, ⟨f, -, rfl⟩, -⟩
    · exact chunkKey_fits hbits hjs.1
    · exact ⟨hsplitting.symm, fun e he => hbits.lt he⟩
  · rw [hrest.1] at hget
    obtain ⟨e, i, hentry, hloader, rfl⟩ := hstyled.html key html hget
    obtain ⟨e', i', -, hjs', hkey, ht⟩ := hfound.own e i ⟨hentry, hhtml i hloader⟩
    obtain ⟨c, hc, heq⟩ := Option.map_eq_some_iff.mp ht
    refine ⟨c, hc, (Prod.mk.inj heq).2.trans ?_⟩
    cases hsplitting : l.codeSplitting with
    | true =>
      rw [chunkKey, chunkKey, if_pos hsplitting, if_pos hsplitting] at hkey
      have hsame : e' = e := by simpa using hkey
      subst hsame
      obtain rfl : i = i' := Option.some.inj (hentry.symm.trans hjs'.1)
      exact hloader
    | false => exact (bits_of_chunkKey hsplitting hkey).1.trans hloader
  · rw [hrest.2.1, hrest.2.2]
    exact hstyled.css

/-! ### The first chunk -/

/-- The first chunk is that of the main entry point. -/
def MainFirst (chunks : List (SortedChunk ι)) : Prop :=
  ∀ chunk, chunks.head? = some chunk → chunk.entryPoint.isEntryPoint = true ∧ chunk.entryPoint.entryPointId = 0

theorem head?_sortChunks (h : Made l s) (hne : s.jsChunks.keys ≠ []) :
    ∃ key c css, s.jsChunks.get? key = some c ∧ (∀ key' ∈ s.jsChunks.keys, l.rank s.jsChunks key ≤ l.rank s.jsChunks key') ∧
      (l.sortChunks s).head? = some (.javascript c css) := by
  have hranks : Ranks (l.rank s.jsChunks) (fun a b => l.lessThan s.jsChunks b a = false) s.jsChunks.keys := ranks
  obtain ⟨key, rest, hsort, hkey, hleast⟩ := hranks.head hne
  obtain ⟨c, hc⟩ := s.jsChunks.mem_keys.mp hkey
  have hkeys : l.sortedKeys s.jsChunks = key :: rest := hsort
  refine ⟨key, c, (s.cssChunksOf key).map fun idx => (l.cssPlaces s).getD idx 0, hc, hleast, ?_⟩
  rw [sortChunks_eq h, scripts, hkeys, List.flatMap_cons, group, hc]
  rfl

theorem head?_sortChunks_css (h : Made l s) (hnone : s.jsChunks.keys = [])
    (hne : s.cssChunks.keys ≠ []) : ∃ key c, s.cssChunks.get? key = some c ∧ (∀ key' ∈ s.cssChunks.keys, key ≤ key') ∧
      (l.sortChunks s).head? = some (.css c) := by
  have hranks : Ranks (fun key : UInt64 => key.toNat) (fun a b => a ≤ b) s.cssChunks.keys :=
    fun a _ b _ => UInt64.le_iff_toNat_le
  obtain ⟨key, rest, hsort, hkey, hleast⟩ := hranks.head hne
  obtain ⟨c, hc⟩ := s.cssChunks.mem_keys.mp hkey
  have hkeys : sortedCssKeys s = key :: rest := hsort
  refine ⟨key, c, hc, fun key' hkey' => UInt64.le_iff_toNat_le.mpr (hleast key' hkey'), ?_⟩
  rw [sortChunks_eq h, scripts, sortedKeys, hnone, sheets, hkeys, List.flatMap_cons, cssGroup, hc]
  rfl

/-! The bytes of a set of entry points, lowest first -/

theorem not_lt_zeros (xs : List Nat) : ¬ xs < List.replicate xs.length 0 := by
  induction xs with
  | nil => simp
  | cons x xs ih =>
    rw [List.length_cons, List.replicate_succ, List.cons_lt_cons_iff]
    rintro (hx | ⟨-, hxs⟩)
    · exact Nat.not_lt_zero x hx
    · exact ih hxs

theorem bitsByte_eq_zero_iff (bits : Finset Nat) : (bitsByte bits 0).toNat = 0 ↔ ∀ e ∈ bits, 8 ≤ e := by
  constructor
  · intro hzero e he
    by_contra hlt
    rw [mem_bits_iff, Nat.div_eq_of_lt (not_le.mp hlt), hzero, Nat.zero_testBit] at he
    cases he
  · intro hbits
    refine Nat.eq_of_testBit_eq fun e => ?_
    rw [Nat.zero_testBit]
    by_cases he : e < 8
    · have hnot : e ∉ bits := fun hmem => absurd (hbits e hmem) (not_le.mpr he)
      rw [mem_bits_iff, Nat.div_eq_of_lt he, Nat.mod_eq_of_lt he] at hnot
      exact Bool.eq_false_iff.mpr hnot
    · refine Nat.testBit_lt_two_pow ?_
      calc (bitsByte bits 0).toNat < 2 ^ 8 := UInt8.toNat_lt _
        _ ≤ 2 ^ e := Nat.pow_le_pow_right (by decide) (not_lt.mp he)

theorem bitsByte_main (i : Nat) : bitsByte {0} (i + 1) = 0 := by
  have hnone : (fun b : Fin 8 => decide (8 * (i + 1) + (b : Nat) ∈ ({0} : Finset Nat))) = fun _ => false := by
    funext b
    refine decide_eq_false fun hmem => ?_
    have := Finset.mem_singleton.mp hmem
    omega
  rw [bitsByte, hnone]
  rfl

/-- A set comes before that of the main entry point if it has none of the first eight. -/
theorem entryBitsBytes_lt_iff (hentry : 0 < l.entryPoints.length) (bits : Finset Nat) :
    (l.entryBitsBytes bits).map UInt8.toNat < (l.entryBitsBytes {0}).map UInt8.toNat ↔ ∀ e ∈ bits, 8 ≤ e := by
  obtain ⟨n, hn⟩ : ∃ n, l.entryBitsLength = n + 1 := Nat.exists_eq_succ_of_ne_zero (by
    have := lt_entryBitsLength hentry
    omega)
  have hmain : (l.entryBitsBytes {0}).map UInt8.toNat = 1 :: List.replicate n 0 := by
    rw [entryBitsBytes, hn, List.range_succ_eq_map, List.map_cons, List.map_cons, List.map_map, List.map_map]
    refine congrArg₂ List.cons rfl (List.eq_replicate_iff.mpr ⟨by simp, fun x hx => ?_⟩)
    obtain ⟨i, -, rfl⟩ := List.mem_map.mp hx
    exact congrArg UInt8.toNat (bitsByte_main i)
  have hbits : (l.entryBitsBytes bits).map UInt8.toNat =
      (bitsByte bits 0).toNat :: (List.range n).map fun i => (bitsByte bits (i + 1)).toNat := by
    rw [entryBitsBytes, hn, List.range_succ_eq_map, List.map_cons, List.map_cons, List.map_map, List.map_map]
    rfl
  rw [hmain, hbits, List.cons_lt_cons_iff, ← bitsByte_eq_zero_iff]
  constructor
  · rintro (hlt | ⟨-, hlt⟩)
    · exact Nat.lt_one_iff.mp hlt
    · have hnot := not_lt_zeros ((List.range n).map fun i => (bitsByte bits (i + 1)).toNat)
      rw [List.length_map, List.length_range] at hnot
      exact absurd hlt hnot
  · intro hzero
    exact .inl (Nat.lt_one_iff.mpr hzero)

/-! When the main entry point's chunk is first -/

variable (l b) in
/-- No script is reached from entry points behind the eighth alone, unless it is in the chunk of one of them; and without
code splitting no later entry point takes the chunk. -/
def ScriptLeads (i : Nat) : Prop :=
  if l.codeSplitting then ∀ f, l.HasParts f → (∃ e ∈ b f, e < 8) ∨ ∃ e i', l.JsEntry e i' ∧ b f = {e}
  else ∀ e i', 0 < e → l.JsEntry e i' → l.loaderIsHtml i' = l.loaderIsHtml i → b i' ≠ b i

variable (l y b) in
/-- The condition for the main entry point's chunk to be the first -/
def MainLeads : Prop :=
  ∀ i, l.entryPoints[0]? = some i →
    if l.hasCss i then
      ∀ e i' : Nat, l.entryPoints[e]? = some i' → l.hasCss i' = true ∧ l.cssHash y b i ≤ l.cssHash y b i'
    else ScriptLeads l b i

theorem traits_eq {c : Chunk} (hc : m.get? key = some c) :
    traits m key = some (c.entryPoint, c.hasHtmlChunk) := by
  rw [traits, hc]
  rfl

theorem rank_eq {t : EntryPoint × Bool} (ht : traits m key = some t) :
    l.rank m key = toLex (decide (t.1.entryPointId ≠ 0), (l.keyBytes key).map UInt8.toNat) := by
  obtain ⟨c, hc, rfl⟩ := Option.map_eq_some_iff.mp ht
  rw [rank, hc]
  rfl

theorem chunkKey_splitting (hsplitting : l.codeSplitting = true) (b : Nat → Finset Nat) (i e : Nat) :
    l.chunkKey b i e = ⟨none, {e}⟩ := by
  rw [chunkKey, if_pos hsplitting]

/-- A shared chunk comes before that of the main entry point if none of the first eight reaches it. -/
theorem rank_shared_lt_iff (hsplitting : l.codeSplitting = true) (hjs : l.JsEntry 0 i)
    {t t' : EntryPoint × Bool} (ht : traits m (l.chunkKey b i 0) = some t) (hid : t.1.entryPointId = 0) {bits : Finset Nat}
    (ht' : traits m ⟨none, bits⟩ = some t') (hid' : t'.1.entryPointId = 0) :
    l.rank m ⟨none, bits⟩ < l.rank m (l.chunkKey b i 0) ↔ ∀ e ∈ bits, 8 ≤ e := by
  have hlength : 0 < l.entryPoints.length := (List.getElem?_eq_some_iff.mp hjs.1).choose
  rw [← entryBitsBytes_lt_iff hlength, rank_eq ht, rank_eq ht', hid, hid', Prod.Lex.toLex_lt_toLex,
    chunkKey_splitting hsplitting]
  simp [keyBytes]

/-- A chunk of the main entry point is not above any other. -/
theorem rank_main_le (hfound : Found l b m) (hjs : l.JsEntry 0 i) {html : Bool}
    (hmain : traits m (l.chunkKey b i 0) = some (⟨i, 0, true⟩, html)) (hleads : ScriptLeads l b i)
    (hkey : key ∈ m.keys) : l.rank m (l.chunkKey b i 0) ≤ l.rank m key := by
  obtain ⟨t, ht⟩ := mem_keys_iff_traits.mp hkey
  rcases hfound.found key t ht with ⟨e, i', hjs', rfl, rfl, -⟩ | ⟨hsplitting, ⟨f, hparts, rfl⟩, hid, hnot⟩
  · by_cases he : e = 0
    · subst he
      obtain rfl : i = i' := Option.some.inj (hjs.1.symm.trans hjs'.1)
      exact le_rfl
    · rw [rank_eq hmain, rank_eq ht, Prod.Lex.toLex_le_toLex]
      left
      simp [he]
  · rw [← not_lt, rank_shared_lt_iff hsplitting hjs hmain rfl ht hid]
    intro hall
    rw [ScriptLeads, if_pos hsplitting] at hleads
    rcases hleads f hparts with ⟨e, he, hlt⟩ | ⟨e, i', hjs', hbits⟩
    · exact absurd (hall e he) (not_le.mpr hlt)
    · -- the file is in the chunk of an entry point
      obtain ⟨e', i'', -, -, -, hown⟩ := hfound.own e i' hjs'
      rw [chunkKey_splitting hsplitting, ← hbits, ht] at hown
      rw [Option.some.inj hown] at hnot
      cases hnot

/-- Among the chunks of scripts -/
theorem mainFirst_iff_scriptLeads (hmade : Made l s) (hfound : Found l b s.jsChunks)
    (hjs : l.JsEntry 0 i) : MainFirst (l.sortChunks s) ↔ ScriptLeads l b i := by
  obtain ⟨e', i', hle, hjs', hkey', hmain⟩ := hfound.own 0 i hjs
  have hmem : l.chunkKey b i 0 ∈ s.jsChunks.keys := mem_keys_iff_traits.mpr ⟨_, hmain⟩
  obtain ⟨key, c, css, hc, hleast, hhead⟩ := head?_sortChunks hmade (List.ne_nil_of_mem hmem)
  have ht := traits_eq hc
  constructor
  · intro hfirst
    obtain ⟨hentry, hid⟩ := hfirst _ hhead
    -- the first chunk is that of the main entry point, which nobody took
    obtain ⟨hkey, hlast⟩ : key = l.chunkKey b i 0 ∧ ∀ e i', 0 < e → l.JsEntry e i' → l.chunkKey b i' e ≠ key := by
      rcases hfound.found key _ ht with ⟨e, i', hjs', hkey, heq, hlast⟩ | ⟨-, -, -, hnot⟩
      · have he : e = 0 := by
          have := congrArg (fun t : EntryPoint × Bool => t.1.entryPointId) heq
          exact this.symm.trans hid
        subst he
        obtain rfl : i = i' := Option.some.inj (hjs.1.symm.trans hjs'.1)
        exact ⟨hkey.symm, hlast⟩
      · exact absurd (hentry.symm.trans hnot) Bool.noConfusion
    subst hkey
    unfold ScriptLeads
    split
    case isTrue hsplitting =>
      intro f hparts
      obtain ⟨t, ht'⟩ := mem_keys_iff_traits.mp (hfound.shared hsplitting ⟨0, i, hjs⟩ f hparts)
      rcases hfound.found _ t ht' with ⟨e, i', hjs', hkey, -⟩ | ⟨-, -, hid', -⟩
      · rw [chunkKey_splitting hsplitting] at hkey
        exact .inr ⟨e, i', hjs', (congrArg ChunkKey.entryBits hkey).symm⟩
      · have hnot := (rank_shared_lt_iff hsplitting hjs ht hid ht' hid').not.mp
          (not_lt.mpr (hleast _ (mem_keys_iff_traits.mpr ⟨t, ht'⟩)))
        exact .inl (by simpa using hnot)
    case isFalse hsplitting =>
      intro e i' he hjs' hhtml heq
      refine hlast e i' he hjs' ?_
      rw [chunkKey, chunkKey, if_neg hsplitting, if_neg hsplitting, hhtml, heq]
  · intro hleads
    have he' : e' = 0 := by
      by_contra hne
      unfold ScriptLeads at hleads
      split at hleads
      case isTrue hsplitting =>
        rw [chunkKey_splitting hsplitting, chunkKey_splitting hsplitting] at hkey'
        exact hne (by simpa using hkey')
      case isFalse hsplitting =>
        obtain ⟨hhtml, hbits⟩ := bits_of_chunkKey (Bool.eq_false_iff.mpr hsplitting) hkey'
        exact hleads e' i' (Nat.pos_of_ne_zero hne) hjs' hhtml hbits
    subst he'
    obtain rfl : i = i' := Option.some.inj (hjs.1.symm.trans hjs'.1)
    have hkey : key = l.chunkKey b i 0 := by
      have hle := rank_main_le hfound hjs hmain hleads (s.jsChunks.mem_keys.mpr ⟨c, hc⟩)
      exact rank_inj hmade.fits (s.jsChunks.mem_keys.mpr ⟨c, hc⟩) hmem (le_antisymm (hleast _ hmem) hle)
    rw [hkey, hmain] at ht
    intro chunk hchunk
    rw [hhead] at hchunk
    obtain rfl := Option.some.inj hchunk
    have hentry : c.entryPoint = ⟨i, 0, true⟩ := (congrArg Prod.fst (Option.some.inj ht)).symm
    show c.entryPoint.isEntryPoint = true ∧ c.entryPoint.entryPointId = 0
    rw [hentry]
    exact ⟨rfl, rfl⟩

/-- Where all entry points are style sheets -/
theorem mainFirst_iff_sheets (hmade : Made l (l.computeStyledChunks y b))
    (hstyled : Styled l y b l.entryPoints.length (l.addStyledEntryPoints y b))
    (hkeys : (l.computeStyledChunks y b).jsChunks.keys = []) (hall : ∀ i ∈ l.entryPoints, l.hasCss i = true) :
    MainFirst (l.sortChunks (l.computeStyledChunks y b)) ↔ MainLeads l y b := by
  have hcss : (l.computeStyledChunks y b).cssChunks = (l.addStyledEntryPoints y b).cssChunks := by
    rw [computeStyledChunks]
    split <;> rfl
  have hlt {e i : Nat} (hentry : l.entryPoints[e]? = some i) : e < l.entryPoints.length :=
    (List.getElem?_eq_some_iff.mp hentry).choose
  have hhash {e i : Nat} (hentry : l.entryPoints[e]? = some i) :
      l.cssHash y b i ∈ (l.computeStyledChunks y b).cssChunks.keys := by
    rw [hcss]
    exact hstyled.hashed e i (hlt hentry) hentry (hall i (List.mem_of_getElem? hentry))
  cases hi : l.entryPoints[0]? with
  | none =>
    have hnil : (l.computeStyledChunks y b).cssChunks.keys = [] := by
      refine List.eq_nil_iff_forall_not_mem.mpr fun hash hmem => ?_
      obtain ⟨c, hc⟩ := ArrayMap.mem_keys _ |>.mp hmem
      obtain ⟨e, i, -, hentry, -⟩ := hstyled.first hall hash c (hcss ▸ hc)
      have hzero := List.getElem?_eq_none_iff.mp hi
      have := hlt hentry
      omega
    have hsort : l.sortChunks (l.computeStyledChunks y b) = [] := by
      rw [sortChunks_eq hmade, scripts, sortedKeys, hkeys, sheets, sortedCssKeys, hnil]
      rfl
    rw [hsort]
    constructor
    · intro _ i hi'
      rw [hi] at hi'
      cases hi'
    · intro _ chunk hchunk
      cases hchunk
  | some i =>
    obtain ⟨key, c, hc, hleast, hhead⟩ := head?_sortChunks_css hmade hkeys (List.ne_nil_of_mem (hhash hi))
    obtain ⟨e, i', -, hentry, hcentry, hkey, hearlier⟩ := hstyled.first hall key c (hcss ▸ hc)
    constructor
    · intro hfirst i'' hi''
      obtain rfl : i = i'' := Option.some.inj (hi.symm.trans hi'')
      have he : e = 0 := by
        have hid := (hfirst _ hhead).2
        rw [SortedChunk.entryPoint, hcentry] at hid
        exact hid
      subst he
      obtain rfl : i = i' := Option.some.inj (hi.symm.trans hentry)
      rw [if_pos (hall i (List.mem_of_getElem? hi))]
      intro e i' hentry'
      rw [hkey]
      exact ⟨hall i' (List.mem_of_getElem? hentry'), hleast _ (hhash hentry')⟩
    · intro hleads chunk hchunk
      have hcond := hleads i hi
      rw [if_pos (hall i (List.mem_of_getElem? hi))] at hcond
      have hle := (hcond e i' hentry).2
      rw [hkey] at hle
      have hsame : l.cssHash y b i = key := UInt64.le_antisymm hle (hleast _ (hhash hi))
      have he : e = 0 := by
        by_contra hne
        exact hearlier 0 i (Nat.pos_of_ne_zero hne) hi hsame
      rw [hhead] at hchunk
      obtain rfl := Option.some.inj hchunk
      rw [SortedChunk.entryPoint, hcentry, he]
      exact ⟨rfl, rfl⟩

/-- The main entry point's chunk is first under this condition, and no other. -/
theorem mainFirst_iff_mainLeads (hbits : l.BitsOf b) (hhtml : ∀ i, l.loaderIsHtml i = true → l.hasCss i = false) :
    MainFirst (l.sortChunks (l.computeStyledChunks y b)) ↔ MainLeads l y b := by
  obtain ⟨hmade, hfound⟩ := computeStyledChunks_made (y := y) hbits hhtml
  have hstyled := addStyledEntryPoints_styled (y := y) hbits
  by_cases hjs : ∃ e i, l.JsEntry e i
  · obtain ⟨e, i', hjs⟩ := hjs
    obtain ⟨i, hi⟩ : ∃ i, l.entryPoints[0]? = some i := by
      have hlt : e < l.entryPoints.length := (List.getElem?_eq_some_iff.mp hjs.1).choose
      exact ⟨_, List.getElem?_eq_getElem (Nat.zero_lt_of_lt hlt)⟩
    have hleads : MainLeads l y b ↔ if l.hasCss i then ∀ e i' : Nat, l.entryPoints[e]? = some i' → l.hasCss i' = true ∧
        l.cssHash y b i ≤ l.cssHash y b i' else ScriptLeads l b i := by
      constructor
      · exact fun h => h i hi
      · intro h i'' hi''
        obtain rfl : i = i'' := Option.some.inj (hi.symm.trans hi'')
        exact h
    rw [hleads]
    split
    case isFalse hnot => exact mainFirst_iff_scriptLeads hmade hfound ⟨hi, Bool.eq_false_iff.mpr hnot⟩
    case isTrue hsheet =>
      -- a script's chunk is first, and none is that of the main entry point
      obtain ⟨e₁, i₁, -, -, -, hmain⟩ := hfound.own e i' hjs
      obtain ⟨key, c, css, hc, -, hhead⟩ := head?_sortChunks hmade (List.ne_nil_of_mem (mem_keys_iff_traits.mpr ⟨_, hmain⟩))
      constructor
      · intro hfirst
        obtain ⟨hentry, hid⟩ := hfirst _ hhead
        rcases hfound.found key _ (traits_eq hc) with ⟨e₂, i₂, hjs₂, -, heq, -⟩ | ⟨-, -, -, hnot⟩
        · have he₂ : e₂ = 0 := (congrArg (fun t : EntryPoint × Bool => t.1.entryPointId) heq).symm.trans hid
          subst he₂
          obtain rfl : i = i₂ := Option.some.inj (hi.symm.trans hjs₂.1)
          exact absurd (hsheet.symm.trans hjs₂.2) Bool.noConfusion
        · exact absurd (hentry.symm.trans hnot) Bool.noConfusion
      · intro hall
        exact absurd ((hall e i' hjs.1).1.symm.trans hjs.2) Bool.noConfusion
  · have hkeys : (l.computeStyledChunks y b).jsChunks.keys = [] := hfound.nothing hjs
    have hall : ∀ i ∈ l.entryPoints, l.hasCss i = true := by
      intro i hi
      obtain ⟨e, he⟩ := List.getElem?_of_mem hi
      exact Bool.not_eq_false _ ▸ fun hnot => hjs ⟨e, i, he, hnot⟩
    exact mainFirst_iff_sheets hmade hstyled hkeys hall

/-! ### The order -/

/-- The order of chunks is that of the set, the main entry point's is first, scripts keep their style sheets, and no chunk
is lost or there twice. -/
structure Canonical (l : Linker) (s : StyledChunks ι) : Prop where
  order : ∀ s', Rearranged s s' → l.sortChunks s' = l.sortChunks s
  first : MainFirst (l.sortChunks s)
  css : ∀ key c, s.jsChunks.get? key = some c → ∃ css, .javascript c css ∈ l.sortChunks s ∧
    List.Forall₂ (fun place idx => ∃ e, s.cssChunks.entries[idx]? = some e ∧ (l.sortChunks s)[place]? = some (.css e.2))
      css (s.cssChunksOf key)
  once : ((l.sortChunks s).map plain).Perm (unsorted s)

/-- **The order of chunks is canonical exactly if** the main entry point leads. -/
theorem canonical_iff_mainLeads (l : Linker) (y : StyleSheets ι) {fuel : Nat} (hfuel : l.graph.files.length < fuel)
    (hhtml : ∀ i, l.loaderIsHtml i = true → l.hasCss i = false) :
    ∃ columns s, l.markEntryPointsReachable fuel = some columns ∧ l.linkStyled y fuel = some s ∧
      (Canonical l s ↔ MainLeads l y columns.entryBits) := by
  obtain ⟨columns, hcolumns, hbits⟩ := l.markEntryPointsReachable_spec hfuel
  have hbits : l.BitsOf columns.entryBits := hbits
  obtain ⟨hmade, -⟩ := computeStyledChunks_made (y := y) hbits hhtml
  refine ⟨columns, l.computeStyledChunks y columns.entryBits, hcolumns, ?_, ?_⟩
  · rw [linkStyled, hcolumns]
    rfl
  · rw [← mainFirst_iff_mainLeads hbits hhtml]
    constructor
    · exact Canonical.first
    · intro hfirst
      exact ⟨fun s' hr => (sortChunks_congr hmade hr).symm, hfirst, fun key c hc => sortChunks_css hmade hc,
        sortChunks_perm hmade⟩

/-! Entry points that all lead to one script -/

/-- Some entry points, of which the last two lead to the last file -/
def sharingLinker (entryPoints : Nat) : Linker where
  graph :=
    { files := List.replicate entryPoints (importingFile .stmt .userSpecified []) ++
        List.replicate 2 (importingFile .stmt .userSpecified [entryPoints + 2]) ++ [importingFile .stmt .none []]
      options := ⟨true, false⟩
      records_valid := by
        simp only [importingFile, List.forall_mem_append, List.forall_mem_replicate, List.forall_mem_singleton]
        simp
      indices_valid := by
        simp only [importingFile, List.forall_mem_append, List.forall_mem_replicate, List.forall_mem_singleton]
        simp
      dependencies_valid := by
        simp only [importingFile, List.forall_mem_append, List.forall_mem_replicate, List.forall_mem_singleton]
        simp }
  codeSplitting := true
  entryPoints := List.range (entryPoints + 2)
  filesLive := Finset.range (entryPoints + 3)
  reachableFiles := List.range (entryPoints + 3)
  isBrowserTarget _ := false
  couldBeBrowserTargetFromServerBuild := false
  entryPoints_live := by simp; omega
  filesLive_valid := by simp
  filesLive_reachable := by simp

def noStyleSheets : StyleSheets Nat := ⟨false, fun _ => [], fun files => files, some, fun _ => 0, fun _ => 0⟩

theorem canonical_iff_mainLeads_sharing : ∃ columns s, (sharingLinker 0).markEntryPointsReachable 4 = some columns ∧
    (sharingLinker 0).linkStyled noStyleSheets 4 = some s ∧
      (Canonical (sharingLinker 0) s ↔ MainLeads (sharingLinker 0) noStyleSheets columns.entryBits) := by
  refine canonical_iff_mainLeads (sharingLinker 0) noStyleSheets (by decide) fun i _ => ?_
  have hfiles : ∀ file ∈ (sharingLinker 0).graph.files, file.hasCss = false := by decide
  rw [hasCss, Option.any_eq_false]
  exact fun file hfile => by simp [hfiles file (List.mem_of_getElem? hfile)]

/-- The first chunk is the one that the last two entry points share. -/
theorem not_canonical_crowded : ∃ s, (sharingLinker 8).linkStyled noStyleSheets 12 = some s ∧
    ((sharingLinker 8).sortChunks s).head?.map SortedChunk.entryPoint = some ⟨10, 0, false⟩ ∧ ¬Canonical (sharingLinker 8) s := by
  have hhead : ((sharingLinker 8).linkStyled noStyleSheets 12).bind (fun s =>
      ((sharingLinker 8).sortChunks s).head?.map SortedChunk.entryPoint) = some ⟨10, 0, false⟩ := by decide +kernel
  obtain ⟨s, hs, hhead⟩ := Option.bind_eq_some_iff.mp hhead
  refine ⟨s, hs, hhead, fun h => ?_⟩
  obtain ⟨chunk, hchunk, hentry⟩ := Option.map_eq_some_iff.mp hhead
  have hfirst := (h.first chunk hchunk).1
  rw [hentry] at hfirst
  cases hfirst

end Linker

end Funbun.Bundler.CodeSplitting
