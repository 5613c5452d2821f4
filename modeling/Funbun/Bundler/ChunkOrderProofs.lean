import Mathlib.Data.Prod.Lex
import Mathlib.Order.Lex
import Mathlib.Data.List.Lex
import Funbun.Library.Sorting
import Funbun.Bundler.ChunkOrder

/-! Chunks are put in order by what they are, and script's chunks keep their style sheets. -/
namespace Funbun.Bundler.CodeSplitting
open Library Sorting

namespace Linker
variable (l : Linker)

/-! ### Keys -/

theorem bytes_lt_iff (a b : List UInt8) : a < b ↔ a.map UInt8.toNat < b.map UInt8.toNat := by
  induction a generalizing b with
  | nil =>
    cases b with
    | nil => simp
    | cons y b => simp
  | cons x a ih =>
    cases b with
    | nil => simp
    | cons y b =>
      rw [List.map_cons, List.map_cons, List.cons_lt_cons_iff, List.cons_lt_cons_iff, ih, UInt8.lt_iff_toNat_lt,
        UInt8.toNat_inj]

/-- What keys are compared by: whether the chunk has another id than the main entry point, then the bytes. -/
def rank (jsChunks : ArrayMap ChunkKey Chunk) (key : ChunkKey) : Bool ×ₗ List Nat :=
  toLex ((jsChunks.get? key).any fun c => decide (c.entryPoint.entryPointId ≠ 0), (l.keyBytes key).map UInt8.toNat)

variable {l} {jsChunks : ArrayMap ChunkKey Chunk} {a b : ChunkKey}

theorem lessThan_iff (ha : a ∈ jsChunks.keys) (hb : b ∈ jsChunks.keys) :
    l.lessThan jsChunks a b = true ↔ l.rank jsChunks a < l.rank jsChunks b := by
  obtain ⟨c, hc⟩ := jsChunks.mem_keys.mp ha
  obtain ⟨c', hc'⟩ := jsChunks.mem_keys.mp hb
  rw [Prod.Lex.lt_iff]
  show l.lessThan jsChunks a b = true ↔ (jsChunks.get? a).any _ < (jsChunks.get? b).any _ ∨
    (jsChunks.get? a).any _ = (jsChunks.get? b).any _ ∧ (l.keyBytes a).map UInt8.toNat < (l.keyBytes b).map UInt8.toNat
  rw [lessThan, hc, hc', ← bytes_lt_iff]
  by_cases hid : c.entryPoint.entryPointId = 0 <;> by_cases hid' : c'.entryPoint.entryPointId = 0 <;>
    simp [hid, hid']

theorem ranks : Ranks (l.rank jsChunks) (fun a b => l.lessThan jsChunks b a = false) jsChunks.keys := by
  intro a ha b hb
  rw [← not_lt, ← lessThan_iff hb ha, Bool.not_eq_true]

/-! Keys are told apart by their bytes. -/

theorem mem_bits_iff (bits : Finset Nat) (e : Nat) : e ∈ bits ↔ ((bitsByte bits (e / 8)).toNat).testBit (e % 8) = true := by
  have hlt : Nat.ofBits (fun b : Fin 8 => decide (8 * (e / 8) + b ∈ bits)) < 2 ^ 8 := Nat.ofBits_lt_two_pow _
  have he : 8 * (e / 8) + e % 8 = e := Nat.div_add_mod e 8
  rw [bitsByte, UInt8.toNat_ofNat', Nat.mod_eq_of_lt hlt, Nat.testBit_ofBits_lt _ _ (Nat.mod_lt e (by decide))]
  simp [he]

theorem lt_entryBitsLength {e : Nat} (he : e < l.entryPoints.length) : e / 8 < l.entryBitsLength := by
  rw [entryBitsLength]
  split <;> omega

theorem entryBits_eq {bits bits' : Finset Nat} (hbits : ∀ e ∈ bits, e < l.entryPoints.length)
    (hbits' : ∀ e ∈ bits', e < l.entryPoints.length) (h : l.entryBitsBytes bits = l.entryBitsBytes bits') : bits = bits' := by
  have hbyte {e : Nat} (he : e < l.entryPoints.length) : bitsByte bits (e / 8) = bitsByte bits' (e / 8) := by
    have hget := congrArg (·[e / 8]?) h
    simpa [entryBitsBytes, List.getElem?_range (lt_entryBitsLength he)] using hget
  ext e
  constructor
  · intro he
    rwa [mem_bits_iff, ← hbyte (hbits e he), ← mem_bits_iff]
  · intro he
    rwa [mem_bits_iff, hbyte (hbits' e he), ← mem_bits_iff]

/-- A key that an entry point or a file can have -/
structure KeyFits (l : Linker) (key : ChunkKey) : Prop where
  notHtml : key.notHtml.isNone = l.codeSplitting
  bits : ∀ e ∈ key.entryBits, e < l.entryPoints.length

theorem KeyFits.eq (ha : KeyFits l a) (hb : KeyFits l b) (h : l.keyBytes a = l.keyBytes b) : a = b := by
  obtain ⟨notHtml, bits⟩ := a
  obtain ⟨notHtml', bits'⟩ := b
  have hnone : notHtml.isNone = notHtml'.isNone := ha.notHtml.trans hb.notHtml.symm
  cases notHtml with
  | none =>
    cases notHtml' with
    | none => exact congrArg (ChunkKey.mk none) (entryBits_eq ha.bits hb.bits h)
    | some _ => cases hnone
  | some x =>
    cases notHtml' with
    | none => cases hnone
    | some x' =>
      obtain ⟨hx, hrest⟩ := List.cons.inj h
      have hsame : x = x' := by
        revert hx
        cases x <;> cases x' <;> decide
      rw [hsame]
      exact congrArg (ChunkKey.mk (some x')) (entryBits_eq ha.bits hb.bits hrest)

theorem rank_inj (h : ∀ key ∈ jsChunks.keys, KeyFits l key) (ha : a ∈ jsChunks.keys) (hb : b ∈ jsChunks.keys)
    (heq : l.rank jsChunks a = l.rank jsChunks b) : a = b := by
  have hbytes : (l.keyBytes a).map UInt8.toNat = (l.keyBytes b).map UInt8.toNat := congrArg (fun x => (ofLex x).2) heq
  have hinj : Function.Injective UInt8.toNat := fun _ _ => UInt8.toNat_inj.mp
  exact (h a ha).eq (h b hb) (List.map_injective_iff.mpr hinj hbytes)

/-! ### The chunks in order -/

section Sorted
variable {ι : Type} (s : StyledChunks ι)

/-- The chunks of a key, whose style sheets are those of the map -/
def group (key : ChunkKey) : List (SortedChunk ι) :=
  match s.jsChunks.get? key with
  | none => []
  | some chunk => .javascript chunk (s.cssChunksOf key) ::
      if chunk.hasHtmlChunk then (s.htmlChunks.get? key).toList.map .html else []

def isStyled : SortedChunk ι → Bool
  | .javascript _ cssChunks => decide (0 < cssChunks.length)
  | .html _ | .css _ => false

/-- After some of the keys -/
structure Placed (keys : List ChunkKey) (st : Sorting ι) : Prop where
  chunks : st.sortedChunks = keys.flatMap (group s)
  indices : st.jsChunkIndicesWithCss = places isStyled st.sortedChunks
  within : ∀ key html, st.htmlChunks.get? key = some html → s.htmlChunks.get? key = some html
  left : ∀ key, key ∉ keys → st.htmlChunks.get? key = s.htmlChunks.get? key
  taken : ∀ key ∈ keys, ∀ c, s.jsChunks.get? key = some c → c.hasHtmlChunk = true → st.htmlChunks.get? key = none

variable {s}

theorem placeJsChunk_spec {keys : List ChunkKey} {st : Sorting ι} (h : Placed s keys st) {key : ChunkKey}
    (hkey : key ∉ keys) : Placed s (keys ++ [key]) (placeJsChunk s st key) := by
  have hmem (key' : ChunkKey) : key' ∉ keys ++ [key] ↔ key' ∉ keys ∧ key' ≠ key := by simp
  rw [placeJsChunk]
  cases hc : s.jsChunks.get? key with
  | none =>
    refine ⟨?_, h.indices, h.within, fun key' hkey' => h.left key' ((hmem key').mp hkey').1, ?_⟩
    · rw [h.chunks, List.flatMap_append, List.flatMap_singleton, group, hc, List.append_nil]
    · intro key' hkey' c hc' hhtml
      rcases List.mem_append.mp hkey' with hkey' | hkey'
      · exact h.taken key' hkey' c hc' hhtml
      · obtain rfl := List.mem_singleton.mp hkey'
        rw [hc] at hc'
        cases hc'
  | some chunk =>
    have hindices : (if 0 < (s.cssChunksOf key).length then st.jsChunkIndicesWithCss ++ [st.sortedChunks.length]
        else st.jsChunkIndicesWithCss) = places isStyled (st.sortedChunks ++ [.javascript chunk (s.cssChunksOf key)]) := by
      have hstyled : isStyled (ι := ι) (.javascript chunk (s.cssChunksOf key)) = decide (0 < (s.cssChunksOf key).length) := rfl
      rw [places_concat, ← h.indices, hstyled]
      by_cases hcss : 0 < (s.cssChunksOf key).length <;> simp [hcss]
    -- no HTML chunk is taken
    have hjs (hnone : chunk.hasHtmlChunk = true → s.htmlChunks.get? key = none) :
        Placed s (keys ++ [key]) ⟨st.htmlChunks, st.sortedChunks ++ [.javascript chunk (s.cssChunksOf key)],
          if 0 < (s.cssChunksOf key).length then st.jsChunkIndicesWithCss ++ [st.sortedChunks.length]
          else st.jsChunkIndicesWithCss⟩ := by
      refine ⟨?_, hindices, h.within, fun key' hkey' => h.left key' ((hmem key').mp hkey').1, ?_⟩
      · rw [h.chunks, List.flatMap_append, List.flatMap_singleton, group, hc]
        cases hhas : chunk.hasHtmlChunk with
        | false => simp [hhas]
        | true => simp [hhas, hnone hhas]
      · intro key' hkey' c hc' hhas
        rcases List.mem_append.mp hkey' with hkey' | hkey'
        · exact h.taken key' hkey' c hc' hhas
        · obtain rfl := List.mem_singleton.mp hkey'
          rw [hc] at hc'
          obtain rfl := Option.some.inj hc'
          exact (h.left key' hkey).trans (hnone hhas)
    dsimp only
    rw [h.left key hkey]
    cases hhtml : s.htmlChunks.get? key with
    | none => exact hjs fun _ => hhtml
    | some html =>
      dsimp only
      split
      case isFalse hhas => exact hjs fun htrue => absurd htrue hhas
      case isTrue hhas =>
        refine ⟨?_, ?_, ?_, ?_, ?_⟩
        · simp [h.chunks, group, hc, hhas, hhtml]
        · refine hindices.trans ?_
          show _ = places isStyled (st.sortedChunks ++ [.javascript chunk (s.cssChunksOf key)] ++ [.html html])
          rw [places_concat isStyled _ (.html html)]
          rfl
        · intro key' html' hget
          rw [ArrayMap.get?_swapRemove] at hget
          split at hget
          · cases hget
          · exact h.within key' html' hget
        · intro key' hkey'
          obtain ⟨hnot, hne⟩ := (hmem key').mp hkey'
          rw [ArrayMap.get?_swapRemove, if_neg hne, h.left key' hnot]
        · intro key' hkey' c hc' hhas'
          rw [ArrayMap.get?_swapRemove]
          split
          · rfl
          · next hne =>
            exact h.taken key' ((List.mem_append.mp hkey').resolve_right (mt List.mem_singleton.mp hne)) c hc' hhas'

theorem placeJsChunks_spec {keys : List ChunkKey} (hnodup : keys.Nodup) :
    Placed s keys (keys.foldl (placeJsChunk s) ⟨s.htmlChunks, [], []⟩) := by
  induction keys using List.reverseRecOn with
  | nil => exact ⟨rfl, rfl, fun _ _ hget => hget, fun _ _ => rfl, fun _ hkey => nomatch hkey⟩
  | append_singleton keys key ih =>
    obtain ⟨hkeys, -, hdisjoint⟩ := List.nodup_append.mp hnodup
    rw [List.foldl_append]
    exact placeJsChunk_spec (ih hkeys) fun hkey => hdisjoint key hkey key (List.mem_singleton_self key) rfl

/-! Style sheets -/

def cssGroup (s : StyledChunks ι) (key : UInt64) : List (SortedChunk ι) := (s.cssChunks.get? key).toList.map .css

/-- After some of the style sheets -/
structure CssPlaced (s : StyledChunks ι) (scripts : List (SortedChunk ι)) (keys : List UInt64)
    (st : List (SortedChunk ι) × List Nat) : Prop where
  chunks : st.1 = scripts ++ keys.flatMap (cssGroup s)
  length : st.1.length = scripts.length + keys.length
  size : st.2.length = s.cssChunks.keys.length
  table : ∀ key ∈ keys, st.2[s.cssChunks.keys.idxOf key]? = some (scripts.length + keys.idxOf key)

theorem placeCssChunk_spec {scripts : List (SortedChunk ι)} {keys : List UInt64} {st : List (SortedChunk ι) × List Nat}
    (h : CssPlaced s scripts keys st) {key : UInt64} (hkey : key ∉ keys) (hmem : key ∈ s.cssChunks.keys) :
    CssPlaced s scripts (keys ++ [key]) (placeCssChunk s st key) := by
  obtain ⟨chunk, hchunk⟩ := s.cssChunks.mem_keys.mp hmem
  rw [placeCssChunk, hchunk]
  refine ⟨?_, ?_, ?_, ?_⟩
  · simp [h.chunks, cssGroup, hchunk]
  · rw [List.length_append, h.length, List.length_append]
    rfl
  · rw [List.length_set, h.size]
  · intro key' hkey'
    have hlt : s.cssChunks.keys.idxOf key < st.2.length := h.size ▸ List.idxOf_lt_length_of_mem hmem
    by_cases hsame : key' = key
    · subst hsame
      rw [List.getElem?_set_self hlt, h.length, List.idxOf_append_of_notMem hkey]
      simp
    · have hbefore : key' ∈ keys := (List.mem_append.mp hkey').resolve_right (mt List.mem_singleton.mp hsame)
      have hne : s.cssChunks.keys.idxOf key ≠ s.cssChunks.keys.idxOf key' := fun heq =>
        hsame ((List.idxOf_inj hmem).mp heq).symm
      rw [List.getElem?_set_ne hne, h.table key' hbefore, List.idxOf_append_of_mem hbefore]

theorem placeCssChunks_fold (s : StyledChunks ι) (scripts : List (SortedChunk ι)) {keys : List UInt64} (hnodup : keys.Nodup)
    (hmem : ∀ key ∈ keys, key ∈ s.cssChunks.keys) :
    CssPlaced s scripts keys (keys.foldl (placeCssChunk s) (scripts, List.replicate s.cssChunks.entries.length 0)) := by
  induction keys using List.reverseRecOn with
  | nil => exact ⟨by simp, by simp, by simp [ArrayMap.keys], fun _ hkey => nomatch hkey⟩
  | append_singleton keys key ih =>
    obtain ⟨hkeys, -, hdisjoint⟩ := List.nodup_append.mp hnodup
    rw [List.foldl_append]
    exact placeCssChunk_spec (ih hkeys fun key' hkey' => hmem key' (List.mem_append_left _ hkey'))
      (fun hkey => hdisjoint key hkey key (List.mem_singleton_self key) rfl)
      (hmem key (List.mem_append_right _ (List.mem_singleton_self key)))

variable (l) in
/-- What the maps are when they are made: every HTML chunk has a script's, and style sheets are in their map. -/
structure Made (s : StyledChunks ι) : Prop where
  fits : ∀ key ∈ s.jsChunks.keys, KeyFits l key
  html : ∀ key html, s.htmlChunks.get? key = some html → ∃ c, s.jsChunks.get? key = some c ∧ c.hasHtmlChunk = true
  css : ∀ key, ∀ idx ∈ s.cssChunksOf key, idx < s.cssChunks.keys.length

variable (l) in
/-- All chunks but those of style sheets -/
def scripts (s : StyledChunks ι) : List (SortedChunk ι) := (l.sortedKeys s.jsChunks).flatMap (group s)

def sheets (s : StyledChunks ι) : List (SortedChunk ι) := (sortedCssKeys s).flatMap (cssGroup s)

variable (l) in
/-- Where the style sheets of the map are -/
def cssPlaces (s : StyledChunks ι) : List Nat :=
  s.cssChunks.keys.map fun key => (l.scripts s).length + (sortedCssKeys s).idxOf key

theorem sortedKeys_perm (jsChunks : ArrayMap ChunkKey Chunk) : (l.sortedKeys jsChunks).Perm jsChunks.keys :=
  List.perm_insertionSort _ _

theorem sortedCssKeys_perm (s : StyledChunks ι) : (sortedCssKeys s).Perm s.cssChunks.keys := List.perm_insertionSort _ _

theorem remap_of_not_styled (places : List Nat) {chunk : SortedChunk ι} (h : isStyled chunk = false) :
    remap places chunk = chunk := by
  cases chunk with
  | javascript chunk cssChunks =>
    have hnil : cssChunks = [] := by simpa [isStyled] using h
    rw [hnil]
    rfl
  | html chunk | css chunk => rfl

theorem mem_group {key : ChunkKey} {chunk : SortedChunk ι} (h : chunk ∈ group s key) :
    (∃ c, s.jsChunks.get? key = some c ∧ chunk = .javascript c (s.cssChunksOf key)) ∨ ∃ html, chunk = .html html := by
  rw [group] at h
  cases hc : s.jsChunks.get? key with
  | none =>
    rw [hc] at h
    cases h
  | some c =>
    rw [hc] at h
    rcases List.mem_cons.mp h with rfl | h
    · exact .inl ⟨c, rfl, rfl⟩
    · split at h
      · obtain ⟨html, -, rfl⟩ := List.mem_map.mp h
        exact .inr ⟨html, rfl⟩
      · cases h

theorem placeCssChunks_eq (h : Made l s) {st : Sorting ι} (hchunks : st.sortedChunks = l.scripts s)
    (hindices : st.jsChunkIndicesWithCss = places isStyled st.sortedChunks) :
    (placeCssChunks s st).sortedChunks = (l.scripts s).map (remap (l.cssPlaces s)) ++ sheets s ∧
      (placeCssChunks s st).htmlChunks = st.htmlChunks := by
  have hnodup : (sortedCssKeys s).Nodup := (sortedCssKeys_perm s).nodup_iff.mpr s.cssChunks.nodup
  have hfold := placeCssChunks_fold s (l.scripts s) hnodup
    fun key hkey => (sortedCssKeys_perm s).mem_iff.mp hkey
  rw [placeCssChunks]
  split
  case isTrue =>
    have htable : ((sortedCssKeys s).foldl (placeCssChunk s)
        (l.scripts s, List.replicate s.cssChunks.entries.length 0)).2 = l.cssPlaces s := by
      apply List.ext_getElem?
      intro i
      rw [cssPlaces, List.getElem?_map]
      cases hkey : s.cssChunks.keys[i]? with
      | none =>
        have hle := List.getElem?_eq_none_iff.mp hkey
        exact List.getElem?_eq_none_iff.mpr (hfold.size ▸ hle)
      | some key =>
        obtain ⟨hi, rfl⟩ := List.getElem?_eq_some_iff.mp hkey
        have hidx : s.cssChunks.keys.idxOf s.cssChunks.keys[i] = i := List.Nodup.idxOf_getElem s.cssChunks.nodup i hi
        have hentry := hfold.table _ ((sortedCssKeys_perm s).mem_iff.mpr (List.getElem_mem hi))
        rwa [hidx] at hentry
    refine ⟨?_, rfl⟩
    have hlt : ∀ i ∈ st.jsChunkIndicesWithCss, i < (l.scripts s).length := fun i hi =>
      lt_of_mem_places isStyled (hchunks ▸ hindices ▸ hi)
    dsimp only
    rw [hchunks, htable, hfold.chunks, foldl_modify_append _ _ hlt, hindices, hchunks, foldl_modify_places]
    congr 1
    apply List.map_congr_left
    intro chunk _
    cases hstyled : isStyled chunk with
    | true => rw [if_pos rfl]
    | false => rw [if_neg Bool.false_ne_true, remap_of_not_styled _ hstyled]
  case isFalse hempty =>
    have hkeys : s.cssChunks.keys = [] := by
      rw [ArrayMap.keys, List.eq_nil_of_length_eq_zero (Nat.eq_zero_of_not_pos hempty)]
      rfl
    have hnone : ∀ key, s.cssChunksOf key = [] := by
      intro key
      refine List.eq_nil_iff_forall_not_mem.mpr fun idx hidx => ?_
      have hlt := h.css key idx hidx
      rw [hkeys] at hlt
      exact Nat.not_lt_zero idx hlt
    have hsheets : sheets s = [] := by
      rw [sheets, sortedCssKeys, hkeys]
      rfl
    refine ⟨?_, rfl⟩
    rw [hsheets, List.append_nil, hchunks]
    conv => lhs; rw [← List.map_id (l.scripts s)]
    apply List.map_congr_left
    intro chunk hchunk
    refine (remap_of_not_styled _ ?_).symm
    obtain ⟨key, -, hchunk⟩ := List.mem_flatMap.mp hchunk
    rcases mem_group hchunk with ⟨c, -, rfl⟩ | ⟨html, rfl⟩
    · rw [hnone key]
      rfl
    · rfl

theorem sortChunks_eq (h : Made l s) : l.sortChunks s = (l.scripts s).map (remap (l.cssPlaces s)) ++ sheets s := by
  have hnodup : (l.sortedKeys s.jsChunks).Nodup := (sortedKeys_perm s.jsChunks).nodup_iff.mpr s.jsChunks.nodup
  have hplaced := placeJsChunks_spec (s := s) hnodup
  obtain ⟨hchunks, hhtml⟩ := placeCssChunks_eq h hplaced.chunks hplaced.indices
  have hnone : ((l.sortedKeys s.jsChunks).foldl (placeJsChunk s) ⟨s.htmlChunks, [], []⟩).htmlChunks.entries = [] := by
    refine List.eq_nil_iff_forall_not_mem.mpr fun e he => ?_
    have hget := (ArrayMap.get?_eq_some _).mpr he
    obtain ⟨c, hc, hhas⟩ := h.html e.1 e.2 (hplaced.within e.1 e.2 hget)
    have hkey := (sortedKeys_perm (l := l) s.jsChunks).mem_iff.mpr (s.jsChunks.mem_keys.mpr ⟨c, hc⟩)
    rw [hplaced.taken e.1 hkey c hc hhas] at hget
    cases hget
  rw [sortChunks, hchunks, hhtml, hnone, List.map_nil, List.append_nil]

/-! What the order keeps -/

/-- A chunk without the places of its style sheets -/
def plain : SortedChunk ι → SortedChunk ι
  | .javascript chunk _ => .javascript chunk []
  | .html chunk => .html chunk
  | .css chunk => .css chunk

/-- The chunks of the maps, one map after the other -/
def unsorted (s : StyledChunks ι) : List (SortedChunk ι) :=
  (s.jsChunks.entries.map fun e => .javascript e.2 []) ++ (s.htmlChunks.entries.map fun e => .html e.2) ++
    s.cssChunks.entries.map fun e => .css e.2

/-- The values of a map, found by a list of its keys -/
theorem flatMap_get?_perm {κ ν β : Type} [DecidableEq κ] (m : ArrayMap κ ν) (f : ν → β) {ks : List κ} (hnodup : ks.Nodup)
    (hks : ∀ k ∈ m.keys, k ∈ ks) :
    (ks.flatMap fun k => (m.get? k).toList.map f).Perm (m.entries.map fun e => f e.2) := by
  have hperm := (m.perm_entries hnodup hks).map fun e => f e.2
  have heq : (ks.filterMap fun k => (m.get? k).map (k, ·)).map (fun e => f e.2) =
      ks.flatMap fun k => (m.get? k).toList.map f := by
    clear hperm hnodup hks
    induction ks with
    | nil => rfl
    | cons k ks ih => cases hk : m.get? k <;> simp [hk, ih]
  rwa [heq] at hperm

theorem plain_remap (places : List Nat) (chunk : SortedChunk ι) : plain (remap places chunk) = plain chunk := by
  cases chunk <;> rfl

theorem map_plain_group (h : Made l s) (key : ChunkKey) : (group s key).map plain =
    (s.jsChunks.get? key).toList.map (fun c => .javascript c []) ++ (s.htmlChunks.get? key).toList.map .html := by
  rw [group]
  cases hc : s.jsChunks.get? key with
  | none =>
    cases hhtml : s.htmlChunks.get? key with
    | none => rfl
    | some html =>
      obtain ⟨c, hc', -⟩ := h.html key html hhtml
      rw [hc] at hc'
      cases hc'
  | some c =>
    cases hhtml : s.htmlChunks.get? key with
    | none => cases hhas : c.hasHtmlChunk <;> simp [plain, hhas]
    | some html =>
      obtain ⟨c', hc', hhas⟩ := h.html key html hhtml
      rw [hc] at hc'
      obtain rfl := Option.some.inj hc'
      simp [plain, hhas]

/-- Every chunk of the maps is there once. -/
theorem sortChunks_perm (h : Made l s) : ((l.sortChunks s).map plain).Perm (unsorted s) := by
  have hnodup : (l.sortedKeys s.jsChunks).Nodup := (sortedKeys_perm s.jsChunks).nodup_iff.mpr s.jsChunks.nodup
  have hscripts : ((l.scripts s).map plain).Perm
      ((s.jsChunks.entries.map fun e => .javascript e.2 []) ++ s.htmlChunks.entries.map fun e => .html e.2) := by
    rw [scripts, List.map_flatMap]
    simp only [map_plain_group h]
    refine (List.flatMap_append_perm _ _ _).symm.trans (.append ?_ ?_)
    · exact flatMap_get?_perm s.jsChunks _ hnodup fun key hkey => (sortedKeys_perm s.jsChunks).mem_iff.mpr hkey
    · refine flatMap_get?_perm s.htmlChunks _ hnodup fun key hkey => ?_
      obtain ⟨html, hhtml⟩ := s.htmlChunks.mem_keys.mp hkey
      obtain ⟨c, hc, -⟩ := h.html key html hhtml
      exact (sortedKeys_perm s.jsChunks).mem_iff.mpr (s.jsChunks.mem_keys.mpr ⟨c, hc⟩)
  have hsheets : ((sheets s).map plain).Perm (s.cssChunks.entries.map fun e => .css e.2) := by
    have hplain : (sheets s).map plain = sheets s := by
      rw [sheets, List.map_flatMap]
      refine List.flatMap_congr fun key _ => ?_
      cases hsheet : s.cssChunks.get? key <;> simp [cssGroup, hsheet, plain]
    rw [hplain]
    exact flatMap_get?_perm s.cssChunks _ ((sortedCssKeys_perm s).nodup_iff.mpr s.cssChunks.nodup)
      fun key hkey => (sortedCssKeys_perm s).mem_iff.mpr hkey
  rw [sortChunks_eq h, List.map_append, List.map_map, funext (f := plain ∘ remap (l.cssPlaces s)) (g := plain)
    fun chunk => plain_remap _ chunk]
  exact hscripts.append hsheets

/-- A script's chunk has the places of its style sheets. -/
theorem sortChunks_css (h : Made l s) {key : ChunkKey} {c : Chunk} (hc : s.jsChunks.get? key = some c) :
    ∃ css, .javascript c css ∈ l.sortChunks s ∧
      List.Forall₂ (fun place idx => ∃ e, s.cssChunks.entries[idx]? = some e ∧ (l.sortChunks s)[place]? = some (.css e.2))
        css (s.cssChunksOf key) := by
  refine ⟨(s.cssChunksOf key).map fun idx => (l.cssPlaces s).getD idx 0, ?_, ?_⟩
  · rw [sortChunks_eq h]
    refine List.mem_append_left _ (List.mem_map.mpr ⟨.javascript c (s.cssChunksOf key), ?_, rfl⟩)
    refine List.mem_flatMap.mpr ⟨key, (sortedKeys_perm s.jsChunks).mem_iff.mpr (s.jsChunks.mem_keys.mpr ⟨c, hc⟩), ?_⟩
    rw [group, hc]
    exact List.mem_cons_self
  · rw [List.forall₂_map_left_iff]
    refine List.forall₂_same.mpr fun idx hidx => ?_
    have hlt := h.css key idx hidx
    have hkey := List.getElem?_eq_getElem hlt
    have hentry : idx < s.cssChunks.entries.length := by simpa [ArrayMap.keys] using hlt
    have hmem : s.cssChunks.keys[idx] ∈ sortedCssKeys s := (sortedCssKeys_perm s).mem_iff.mpr (List.getElem_mem hlt)
    refine ⟨_, List.getElem?_eq_getElem hentry, ?_⟩
    have hplace : (l.cssPlaces s).getD idx 0 = (l.scripts s).length + (sortedCssKeys s).idxOf s.cssChunks.keys[idx] := by
      rw [cssPlaces, List.getD_eq_getElem?_getD, List.getElem?_map, hkey]
      rfl
    have hsheets : sheets s = (sortedCssKeys s).map fun key => .css ((s.cssChunks.get? key).getD s.cssChunks.entries[idx].2) := by
      rw [sheets, ← List.flatMap_singleton' ((sortedCssKeys s).map _), List.flatMap_map]
      refine List.flatMap_congr fun key hkey => ?_
      obtain ⟨sheet, hsheet⟩ := s.cssChunks.mem_keys.mp ((sortedCssKeys_perm s).mem_iff.mp hkey)
      rw [cssGroup, hsheet]
      rfl
    have hget : s.cssChunks.get? s.cssChunks.keys[idx] = some s.cssChunks.entries[idx].2 := by
      rw [ArrayMap.get?_eq_some]
      simp [ArrayMap.keys]
    rw [hplace, sortChunks_eq h, List.getElem?_append_right (by simp), List.length_map, Nat.add_sub_cancel_left, hsheets,
      List.getElem?_map, List.getElem?_eq_getElem (List.idxOf_lt_length_of_mem hmem), List.getElem_idxOf, Option.map_some,
      hget, Option.getD_some]

/-- The same maps, but for the order in which things were put in -/
structure Rearranged (s s' : StyledChunks ι) : Prop where
  js : s.jsChunks.entries.Perm s'.jsChunks.entries
  html : s.htmlChunks.entries.Perm s'.htmlChunks.entries
  css : s.cssChunks.entries.Perm s'.cssChunks.entries
  /-- A script has the same style sheets. -/
  cssOf : ∀ key, (s.cssChunksOf key).map (s.cssChunks.keys[·]?) = (s'.cssChunksOf key).map (s'.cssChunks.keys[·]?)

variable {s' : StyledChunks ι}

theorem Rearranged.made (h : Made l s) (hr : Rearranged s s') : Made l s' where
  fits key hkey := h.fits key ((hr.js.map Prod.fst).mem_iff.mpr hkey)
  html key html hget := by
    rw [← ArrayMap.get?_congr_perm hr.html] at hget
    rw [← ArrayMap.get?_congr_perm hr.js]
    exact h.html key html hget
  css key idx hidx := by
    have hmem : s'.cssChunks.keys[idx]? ∈ (s.cssChunksOf key).map (s.cssChunks.keys[·]?) :=
      hr.cssOf key ▸ List.mem_map_of_mem hidx
    obtain ⟨idx', hidx', heq⟩ := List.mem_map.mp hmem
    rw [List.getElem?_eq_getElem (h.css key idx' hidx')] at heq
    exact (List.getElem?_eq_some_iff.mp heq.symm).choose

theorem Rearranged.sortedKeys_eq (h : Made l s) (hr : Rearranged s s') :
    l.sortedKeys s.jsChunks = l.sortedKeys s'.jsChunks := by
  have hrank : l.rank s'.jsChunks = l.rank s.jsChunks := by
    funext key
    rw [rank, rank, ArrayMap.get?_congr_perm hr.js]
  have hranks : Ranks (l.rank s.jsChunks) (fun a b => l.lessThan s'.jsChunks b a = false) s'.jsChunks.keys := hrank ▸ ranks
  exact ranks.eq_of_perm hranks (fun a ha b hb => rank_inj h.fits ha hb) (hr.js.map Prod.fst)

theorem Rearranged.sortedCssKeys_eq (hr : Rearranged s s') : sortedCssKeys s = sortedCssKeys s' := by
  have hranks (keys : List UInt64) : Ranks (fun key : UInt64 => key.toNat) (fun a b => a ≤ b) keys :=
    fun a _ b _ => UInt64.le_iff_toNat_le
  exact (hranks _).eq_of_perm (hranks _) (fun a _ b _ => UInt64.toNat_inj.mp) (hr.css.map Prod.fst)

/-- The order depends on the maps as sets only. -/
theorem sortChunks_congr (h : Made l s) (hr : Rearranged s s') : l.sortChunks s = l.sortChunks s' := by
  have hcssKeys := hr.sortedCssKeys_eq
  have hgroup (key : ChunkKey) : (group s key).length = (group s' key).length := by
    rw [group, group, ArrayMap.get?_congr_perm hr.js, ArrayMap.get?_congr_perm hr.html]
    split <;> rfl
  have hlength : (l.scripts s).length = (l.scripts s').length := by
    rw [scripts, scripts, hr.sortedKeys_eq h, List.length_flatMap, List.length_flatMap, funext hgroup]
  have hplace (key : ChunkKey) : (s.cssChunksOf key).map (fun idx => (l.cssPlaces s).getD idx 0) =
      (s'.cssChunksOf key).map fun idx => (l.cssPlaces s').getD idx 0 := by
    have hof := congrArg (List.map fun key? : Option UInt64 =>
      (key?.map fun key => (l.scripts s).length + (sortedCssKeys s).idxOf key).getD 0) (hr.cssOf key)
    rw [List.map_map, List.map_map] at hof
    simpa [cssPlaces, List.getD_eq_getElem?_getD, Function.comp_def, ← hlength, ← hcssKeys] using hof
  have hscripts : (l.scripts s).map (remap (l.cssPlaces s)) = (l.scripts s').map (remap (l.cssPlaces s')) := by
    rw [scripts, scripts, hr.sortedKeys_eq h, List.map_flatMap, List.map_flatMap]
    refine List.flatMap_congr fun key _ => ?_
    rw [group, group, ArrayMap.get?_congr_perm hr.js, ArrayMap.get?_congr_perm hr.html]
    cases s'.jsChunks.get? key with
    | none => rfl
    | some c =>
      rw [List.map_cons, List.map_cons]
      refine congrArg₂ List.cons (congrArg (SortedChunk.javascript c) (hplace key)) ?_
      split
      · rw [List.map_map, List.map_map]
        rfl
      · rfl
  have hsheets : sheets s = sheets s' := by
    rw [sheets, sheets, hcssKeys]
    refine List.flatMap_congr fun key _ => ?_
    rw [cssGroup, cssGroup, ArrayMap.get?_congr_perm hr.css]
  rw [sortChunks_eq h, sortChunks_eq (hr.made h), hscripts, hsheets]

end Sorted

end Linker

end Funbun.Bundler.CodeSplitting
