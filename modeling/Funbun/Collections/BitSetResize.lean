import Funbun.Collections.BitSetProofs

/-! The resizing of a set. The bits that are added are written over what the padding and the new memory have. -/
namespace Funbun.Collections.DynamicBitSetUnmanaged
open Library Library.Bits Library.Words
variable {s : DynamicBitSetUnmanaged} {a : IndexSet} {memory : Option (Nat → Word)}

/-- There is room for the words, and the old ones that there is room for are kept. -/
theorem resizeWords_some {n : Nat} {words : List Word} (h : s.resizeWords memory n = some words) (hn : 0 < n) :
    n ≤ words.length ∧ ∀ k < n, k < s.words.length → words[k]? = s.words[k]? := by
  have hkept : n + 1 ≤ s.allocLen → n ≤ s.words.length := by
    unfold allocLen
    split
    · omega
    · omega
  unfold resizeWords at h
  by_cases hsame : s.allocLen = n + 1
  · rw [if_pos hsame, Option.some_inj] at h
    subst h
    exact ⟨hkept (Nat.le_of_eq hsame.symm), fun _ _ _ => rfl⟩
  · rw [if_neg hsame] at h
    cases memory with
    | none =>
      obtain ⟨hle, rfl⟩ : ¬s.allocLen < n + 1 ∧ s.words = words := by simpa using h
      exact ⟨hkept (Nat.not_lt.1 hle), fun _ _ _ => rfl⟩
    | some fresh =>
      obtain rfl : s.realloc fresh n = words := by simpa using h
      refine ⟨by simp [realloc], fun k hk hold => ?_⟩
      simp [realloc, hk, List.getElem?_eq_getElem hold]

/-- Memory is wanting only where there is none. -/
theorem resizeWords_none {n : Nat} (h : s.resizeWords memory n = none) : memory = none := by
  cases memory with
  | none => rfl
  | some fresh =>
    unfold resizeWords at h
    by_cases hsame : s.allocLen = n + 1
    · simp [hsame] at h
    · simp [hsame] at h

/-- The padding of the old last word has the bits that are added. -/
theorem Good.fillPadding {ws : List Word} (h : Good s a) (fill : Bool) (hle : numMasks a.length ≤ ws.length)
    (hold : ∀ i < 64 * numMasks a.length, bit ws i = decide (i ∈ a.members)) :
    Returns (if fill = true ∧ 0 < numMasks s.bitLength then
        modifyWord (numMasks s.bitLength - 1) (fun m => m ||| ~~~lastItemMask s.bitLength) ws
      else .ok ws) fun out => out.length = ws.length ∧
        ∀ i < 64 * numMasks a.length, bit out i = (decide (i ∈ a.members) || (fill && !decide (i < a.length))) := by
  rw [h.length]
  by_cases hfill : fill = true ∧ 0 < numMasks a.length
  · rw [if_pos hfill]
    have hne : a.length ≠ 0 := by
      intro hzero
      rw [hzero] at hfill
      exact absurd hfill.2 (by decide)
    refine (modifyWord_returns (by omega) _).mono fun out hout => ⟨hout.1, fun i hi => ?_⟩
    rw [hout.2 i (by omega), hfill.1, Bool.true_and]
    by_cases hlast : i / 64 = numMasks a.length - 1
    · rw [if_pos hlast, BitVec.getLsbD_or, BitVec.getLsbD_not, decide_eq_true (Nat.mod_lt i (by decide)), Bool.true_and,
        getLsbD_lastItemMask hne hlast, ← hold i hi]
      rfl
    · have hmasks := masks_lt_length hne
      have hlt : i < a.length := by omega
      rw [if_neg hlast, hold i hi, decide_eq_true hlt, Bool.not_true, Bool.or_false]
  · rw [if_neg hfill]
    refine .ok ⟨rfl, fun i hi => ?_⟩
    have hnot : fill = false := by
      rw [← Bool.not_eq_true]
      exact fun h => hfill ⟨h, by omega⟩
    rw [hold i hi, hnot, Bool.false_and, Bool.or_false]

/-- Below the new length the bits are those of the old members and of the numbers that are added. -/
theorem Good.fillWords {ws : List Word} {newLen : Nat} (h : Good s a) (fill : Bool) (hlength : ws.length = numMasks newLen)
    (hold : ∀ i < 64 * ws.length, i < 64 * numMasks a.length → bit ws i = decide (i ∈ a.members)) :
    Returns (s.fillWords newLen fill ws) fun out => out.length = ws.length ∧
      ∀ i < newLen, bit out i = true ↔ i ∈ (a.resize newLen fill).members := by
  unfold DynamicBitSetUnmanaged.fillWords
  have hnew := length_le_masks newLen
  simp only
  by_cases hgrow : s.bitLength < newLen
  · rw [if_pos hgrow]
    rw [h.length] at hgrow
    have hmono := numMasks_mono (Nat.le_of_lt hgrow)
    refine (h.fillPadding fill (by omega) fun i hi => hold i (by omega) hi).bind fun padded hpadded => ?_
    obtain ⟨hpaddedLength, hpaddedBits⟩ := hpadded
    have hmembers : ∀ i < newLen, (decide (i ∈ a.members) || (fill && !decide (i < a.length))) = true ↔
        i ∈ (a.resize newLen fill).members := by
      intro i hi
      cases fill with
      | true => simp [IndexSet.resize, hi]
      | false => simp [IndexSet.resize, hi]
    have hbehind : ∀ i, numMasks a.length ≤ i / 64 → (decide (i ∈ a.members) || (fill && !decide (i < a.length))) = fill := by
      intro i hi
      have hge : ¬i < a.length := by
        have := length_le_masks a.length
        omega
      have hmem : i ∉ a.members := fun hmem => hge (a.lt i hmem)
      simp [hge, hmem]
    rw [h.length]
    by_cases hmore : numMasks a.length < numMasks newLen
    · rw [if_pos hmore]
      refine (writeWords_returns (boolMask fill) (by omega)).mono fun out hout => ⟨hout.1.trans hpaddedLength, fun i hi => ?_⟩
      rw [hout.2 i, ← hmembers i hi]
      by_cases hword : numMasks a.length ≤ i / 64
      · rw [if_pos ⟨hword, by omega⟩, getLsbD_boolMask fill (Nat.mod_lt i (by decide)), hbehind i hword]
      · rw [if_neg fun h => hword h.1, hpaddedBits i (by omega)]
    · rw [if_neg hmore]
      exact .ok ⟨hpaddedLength, fun i hi => by rw [hpaddedBits i (by omega), hmembers i hi]⟩
  · rw [if_neg hgrow]
    rw [h.length] at hgrow
    have hmono := numMasks_mono (Nat.not_lt.1 hgrow)
    refine .ok ⟨rfl, fun i hi => ?_⟩
    have hempty : Finset.Ico a.length newLen = ∅ := Finset.Ico_eq_empty_of_le (Nat.not_lt.1 hgrow)
    rw [hold i (by omega) (by omega), decide_eq_true_eq]
    simp [IndexSet.resize, hempty, hi]

/-- A set is resized, or it stays because there is no memory. -/
theorem Good.resize (h : Good s a) (memory : Option (Nat → Word)) (newLen : Nat) (fill : Bool) :
    Returns (s.resize memory newLen fill) fun r => Good r.1 (if r.2 then a.resize newLen fill else a) ∧
      (r.2 = false → memory = none) := by
  unfold DynamicBitSetUnmanaged.resize
  simp only
  by_cases hzero : numMasks newLen = 0
  · rw [if_pos hzero]
    have hnone : newLen = 0 := by
      have := length_le_masks newLen
      omega
    exact .ok ⟨by rw [hnone]; exact good_empty _, fun h => absurd h (by decide)⟩
  rw [if_neg hzero]
  have hne : newLen ≠ 0 := by
    intro hnone
    rw [hnone] at hzero
    exact hzero rfl
  cases hwords : s.resizeWords memory (numMasks newLen) with
  | none => exact .ok ⟨h, fun _ => resizeWords_none hwords⟩
  | some words =>
    obtain ⟨hroom, hkept⟩ := resizeWords_some hwords (Nat.pos_of_ne_zero hzero)
    simp only
    rw [if_pos hroom]
    have hlength : (words.take (numMasks newLen)).length = numMasks newLen := by
      rw [List.length_take, Nat.min_eq_left hroom]
    have hold : ∀ i < 64 * (words.take (numMasks newLen)).length, i < 64 * numMasks a.length →
        bit (words.take (numMasks newLen)) i = decide (i ∈ a.members) := by
      intro i hi hlt
      have hwords : i / 64 < s.words.length := by
        have := h.room
        rw [h.length] at this
        omega
      rw [bit_take (by decide) (by omega), ← h.bit_eq]
      unfold masks
      rw [bit_take (by decide) (by rw [h.length]; exact hlt)]
      unfold bit
      rw [hkept (i / 64) (by omega) hwords]
    refine (h.fillWords fill hlength hold).bind fun filled hfilled => ?_
    obtain ⟨hfilledLength, hbits⟩ := hfilled
    refine (maskLast_returns hne (hfilledLength.trans hlength)).bind fun out hout => ?_
    obtain ⟨houtLength, houtBits⟩ := hout
    have hall : out.length = numMasks newLen := houtLength.trans (hfilledLength.trans hlength)
    have htake : masks ⟨newLen, out ++ words.drop (numMasks newLen)⟩ = out := by
      unfold masks
      rw [← hall, List.take_left]
    refine .ok ⟨⟨rfl, ?_, fun i => ?_⟩, fun h => absurd h.symm Bool.false_ne_true⟩
    · rw [List.length_append, hall]
      exact Nat.le_add_right ..
    · rw [htake]
      have hnew := length_le_masks newLen
      constructor
      · intro hi
        have hlt := lt_of_bit hi
        rw [houtBits i (by omega), Bool.and_eq_true, decide_eq_true_eq] at hi
        exact (hbits i hi.2).1 hi.1
      · intro hi
        have hlt : i < newLen := (a.resize newLen fill).lt i hi
        rw [houtBits i (by omega), Bool.and_eq_true, decide_eq_true_eq]
        exact ⟨(hbits i hlt).2 hi, hlt⟩

/-- A clone is the same set in memory of its own. -/
theorem Good.clone (h : Good s a) (memory : Option (Nat → Word)) :
    Returns (s.clone memory) fun r => (∀ t ∈ r, Good t a) ∧ (r = none → memory = none) := by
  unfold DynamicBitSetUnmanaged.clone
  refine ((good_empty ∅).resize memory s.bitLength false).bind fun resized hresized => ?_
  obtain ⟨hgood, hmemory⟩ := hresized
  by_cases hdone : resized.2 = true
  · rw [if_pos hdone, h.masksSlice]
    rw [if_pos hdone, h.length] at hgood
    have hlength : resized.1.masks.length = s.masks.length := by
      rw [hgood.length_masks, h.length_masks]
      rfl
    have hcopy : Returns (resized.1.updateMasks fun dst => if dst.length = s.masks.length then .ok s.masks else .error .index)
        fun t => Good t (.below a.length a.members) := by
      refine hgood.write ⟨_, if_pos hlength, hlength.symm, fun i _ => ?_⟩
      rw [h.represents i]
      exact (and_iff_left_of_imp (a.lt i)).symm
    rw [IndexSet.below_self] at hcopy
    refine hcopy.bind fun t ht => .ok ⟨fun t' ht' => ?_, fun h => absurd h (Option.some_ne_none t)⟩
    cases ht'
    exact ht
  · rw [if_neg hdone]
    exact .ok ⟨fun t ht => absurd ht (Option.not_mem_none t), fun _ => hmemory (Bool.eq_false_iff.2 hdone)⟩

end Funbun.Collections.DynamicBitSetUnmanaged
