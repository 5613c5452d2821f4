import Funbun.Collections.BitSet
import Funbun.Library.Words

/-! What the writes to words do to bits. -/
namespace Funbun.Collections
open Library Library.Bits Library.Words

/-! ### Masks -/

variable {j bitLength : Nat}

theorem getLsbD_boolMask (value : Bool) (hj : j < 64) : (boolMask value).getLsbD j = value := by
  unfold boolMask
  cases value with
  | true => exact BitVec.getLsbD_allOnes.trans (decide_eq_true hj)
  | false => exact BitVec.getLsbD_zero

theorem getLsbD_wordMaskBit (index : Nat) (hj : j < 64) : (wordMaskBit index).getLsbD j = decide (j = index % 64) := by
  unfold wordMaskBit
  rw [getLsbD_one_shiftLeft]
  simp [hj]

theorem length_le_masks (bitLength : Nat) : bitLength ≤ 64 * numMasks bitLength := by
  unfold numMasks
  omega

theorem masks_lt_length (h : bitLength ≠ 0) : 64 * (numMasks bitLength - 1) < bitLength := by
  unfold numMasks
  omega

theorem numMasks_pos (h : bitLength ≠ 0) : 0 < numMasks bitLength := by
  unfold numMasks
  omega

theorem numMasks_mono {a b : Nat} (h : a ≤ b) : numMasks a ≤ numMasks b := by
  unfold numMasks
  omega

/-- In the last word, the ones of the mask are those below the length. -/
theorem getLsbD_lastItemMask {bitLength i : Nat} (h : bitLength ≠ 0) (hi : i / 64 = numMasks bitLength - 1) :
    (lastItemMask bitLength).getLsbD (i % 64) = decide (i < bitLength) := by
  unfold lastItemMask
  rw [BitVec.getLsbD_ushiftRight, BitVec.getLsbD_allOnes]
  unfold numMasks at hi ⊢
  rw [decide_eq_decide]
  omega

/-! ### One word -/

variable {ws : List Word} {i : Nat}

theorem modifyWord_returns {k : Nat} (hk : k < ws.length) (f : Word → Word) :
    Returns (modifyWord k f ws) fun out => out.length = ws.length ∧ ∀ i < 64 * ws.length,
      bit out i = if i / 64 = k then (f (ws[i / 64]?.getD 0)).getLsbD (i % 64) else bit ws i :=
  ⟨_, if_pos hk, List.length_modify .., fun _ hi => bit_modify f hi (by decide)⟩

/-- A write to a word that changes one bit -/
theorem modifyBit_returns {index : Nat} (hindex : index < 64 * ws.length) {f : Word → Word} {g : Bool → Bool}
    (hf : ∀ x j, j < 64 → (f x).getLsbD j = if j = index % 64 then g (x.getLsbD j) else x.getLsbD j) :
    Returns (modifyWord (wordMaskIndex index) f ws) fun out => out.length = ws.length ∧ ∀ i < 64 * ws.length,
      bit out i = if i = index then g (bit ws i) else bit ws i := by
  unfold wordMaskIndex
  refine (modifyWord_returns (div_lt (by decide) hindex) f).mono fun out hout => ⟨hout.1, fun i hi => ?_⟩
  rw [hout.2 i hi]
  by_cases hword : i / 64 = index / 64
  · rw [if_pos hword, hf _ _ (Nat.mod_lt i (by decide))]
    by_cases hbit : i % 64 = index % 64
    · rw [if_pos hbit, if_pos (by omega)]
      rfl
    · rw [if_neg hbit, if_neg (by omega)]
      rfl
  · rw [if_neg hword, if_neg (by omega)]

/-- The last word without its padding -/
theorem maskLast_returns (h : bitLength ≠ 0) (hlength : ws.length = numMasks bitLength) :
    Returns (modifyWord (numMasks bitLength - 1) (fun m => m &&& lastItemMask bitLength) ws) fun out =>
      out.length = ws.length ∧ ∀ i < 64 * ws.length, bit out i = (bit ws i && decide (i < bitLength)) := by
  have hpos := numMasks_pos h
  refine (modifyWord_returns (by omega) _).mono fun out hout => ⟨hout.1, fun i hi => ?_⟩
  rw [hout.2 i hi]
  by_cases hword : i / 64 = numMasks bitLength - 1
  · rw [if_pos hword, BitVec.getLsbD_and, getLsbD_lastItemMask h hword]
    rfl
  · have hlast := masks_lt_length h
    have hlt : i < bitLength := by omega
    rw [if_neg hword, decide_eq_true hlt, Bool.and_true]

/-! ### Many words -/

theorem getElem?_written {α : Type} {slice bytes : List α} {start : Nat} (h : start + bytes.length ≤ slice.length) (j : Nat) :
    (slice.take start ++ bytes ++ slice.drop (start + bytes.length))[j]? =
      if start ≤ j ∧ j < start + bytes.length then bytes[j - start]? else slice[j]? := by
  have htake : (slice.take start).length = start := by
    rw [List.length_take]
    omega
  by_cases hlow : j < start
  · rw [if_neg (by omega), List.append_assoc, List.getElem?_append_left (by omega), List.getElem?_take_of_lt hlow]
  · by_cases hhigh : j < start + bytes.length
    · rw [if_pos ⟨by omega, hhigh⟩, List.getElem?_append_left (by rw [List.length_append, htake]; exact hhigh),
        List.getElem?_append_right (by omega), htake]
    · rw [if_neg (by omega), List.getElem?_append_right (by rw [List.length_append, htake]; omega), List.length_append, htake,
        List.getElem?_drop]
      congr 1
      omega

theorem writeWords_returns {start n : Nat} (x : Word) (h : start + n ≤ ws.length) :
    Returns (writeAt ws start (List.replicate n x)) fun out => out.length = ws.length ∧ ∀ i,
      bit out i = if start ≤ i / 64 ∧ i / 64 < start + n then x.getLsbD (i % 64) else bit ws i := by
  have hfits : start + (List.replicate n x).length ≤ ws.length := by rwa [List.length_replicate]
  refine ⟨_, if_pos hfits, ?_, fun i => ?_⟩
  · simp only [List.length_append, List.length_take, List.length_drop]
    omega
  · unfold bit
    rw [getElem?_written hfits, List.length_replicate]
    by_cases hi : start ≤ i / 64 ∧ i / 64 < start + n
    · rw [if_pos hi, if_pos hi, List.getElem?_replicate, if_pos (by omega), Option.getD_some]
    · rw [if_neg hi, if_neg hi]

/-! ### A range -/

theorem getLsbD_lowMask (value : Bool) {last j : Nat} (hlast : last < 64) :
    (boolMask value >>> (63 - last)).getLsbD j = (value && decide (j ≤ last)) := by
  rw [BitVec.getLsbD_ushiftRight]
  by_cases hle : j ≤ last
  · rw [getLsbD_boolMask value (by omega), decide_eq_true hle, Bool.and_true]
  · rw [decide_eq_false hle, Bool.and_false]
    exact BitVec.getLsbD_of_ge _ _ (by omega)

theorem getLsbD_highMask (value : Bool) {first j : Nat} (hj : j < 64) :
    (boolMask value <<< first).getLsbD j = (value && decide (first ≤ j)) := by
  rw [BitVec.getLsbD_shiftLeft]
  by_cases hle : first ≤ j
  · rw [getLsbD_boolMask value (by omega)]
    simp [hle, hj]
  · simp [hle, Nat.lt_of_not_le hle]

variable {start stop : Nat}

/-- The range lies in one word. -/
theorem setWord_returns (value : Bool) (hlt : start < stop) (hone : start / 64 = stop / 64) (hstop : stop ≤ 64 * ws.length) :
    Returns (modifyWord (start / 64) (fun m =>
        m &&& ~~~(boolMask true <<< (start % 64) &&& boolMask true >>> (63 - (stop % 64 - 1))) |||
          boolMask value <<< (start % 64) &&& boolMask value >>> (63 - (stop % 64 - 1))) ws) fun out =>
      out.length = ws.length ∧ ∀ i < 64 * ws.length, bit out i = if start ≤ i ∧ i < stop then value else bit ws i := by
  refine (modifyWord_returns (by omega) _).mono fun out hout => ⟨hout.1, fun i hi => ?_⟩
  rw [hout.2 i hi]
  have hmod := Nat.mod_lt i (show 0 < 64 by decide)
  by_cases hword : i / 64 = start / 64
  · rw [if_pos hword, BitVec.getLsbD_or, BitVec.getLsbD_and, BitVec.getLsbD_not, BitVec.getLsbD_and, BitVec.getLsbD_and,
      getLsbD_highMask _ hmod, getLsbD_highMask _ hmod, getLsbD_lowMask _ (by omega), getLsbD_lowMask _ (by omega),
      decide_eq_true hmod, Bool.true_and, Bool.true_and, Bool.true_and]
    have hrange : (start ≤ i ∧ i < stop) ↔ (start % 64 ≤ i % 64 ∧ i % 64 ≤ stop % 64 - 1) := by omega
    by_cases hin : start ≤ i ∧ i < stop
    · have hbits := hrange.1 hin
      simp [hin, hbits.1, hbits.2]
    · have hbits : ¬(start % 64 ≤ i % 64 ∧ i % 64 ≤ stop % 64 - 1) := fun h => hin (hrange.2 h)
      rw [if_neg hin]
      rcases not_and_or.1 hbits with hnot | hnot
      · simp [hnot, bit]
      · simp [hnot, bit]
  · rw [if_neg hword, if_neg (by omega)]

/-- The first word, if the range does not begin with it -/
theorem setFirst_returns (value : Bool) (hlt : start / 64 < ws.length) :
    Returns (if 0 < start % 64 then
        modifyWord (start / 64) (fun m => m &&& ~~~(boolMask true <<< (start % 64)) ||| boolMask value <<< (start % 64)) ws
      else .ok ws) fun out => out.length = ws.length ∧ ∀ i < 64 * ws.length,
        bit out i = if 0 < start % 64 ∧ i / 64 = start / 64 ∧ start ≤ i then value else bit ws i := by
  by_cases hpartial : 0 < start % 64
  · rw [if_pos hpartial]
    refine (modifyWord_returns hlt _).mono fun out hout => ⟨hout.1, fun i hi => ?_⟩
    rw [hout.2 i hi]
    have hmod := Nat.mod_lt i (show 0 < 64 by decide)
    by_cases hword : i / 64 = start / 64
    · rw [if_pos hword, BitVec.getLsbD_or, BitVec.getLsbD_and, BitVec.getLsbD_not, getLsbD_highMask _ hmod,
        getLsbD_highMask _ hmod, decide_eq_true hmod, Bool.true_and, Bool.true_and]
      by_cases hin : start ≤ i
      · have hbit : start % 64 ≤ i % 64 := by omega
        simp [hin, hbit, hword, hpartial]
      · have hbit : ¬start % 64 ≤ i % 64 := by omega
        simp [hin, hbit, bit]
    · rw [if_neg hword, if_neg fun h => hword h.2.1]
  · rw [if_neg hpartial]
    exact .ok ⟨rfl, fun i _ => (if_neg fun h => hpartial h.1).symm⟩

/-- The last word, if the range does not end with the one before it -/
theorem setLast_returns (value : Bool) (hstop : stop ≤ 64 * ws.length) :
    Returns (if 0 < stop % 64 then
        modifyWord (stop / 64)
          (fun m => m &&& (boolMask true <<< (stop % 64)) ||| boolMask value >>> (63 - (stop % 64 - 1))) ws
      else .ok ws) fun out => out.length = ws.length ∧ ∀ i < 64 * ws.length,
        bit out i = if i / 64 = stop / 64 ∧ i < stop then value else bit ws i := by
  by_cases hpartial : 0 < stop % 64
  · rw [if_pos hpartial]
    refine (modifyWord_returns (by omega) _).mono fun out hout => ⟨hout.1, fun i hi => ?_⟩
    rw [hout.2 i hi]
    have hmod := Nat.mod_lt i (show 0 < 64 by decide)
    by_cases hword : i / 64 = stop / 64
    · rw [if_pos hword, BitVec.getLsbD_or, BitVec.getLsbD_and, getLsbD_highMask _ hmod, getLsbD_lowMask _ (by omega)]
      by_cases hin : i < stop
      · have hbit : i % 64 ≤ stop % 64 - 1 ∧ ¬stop % 64 ≤ i % 64 := by omega
        simp [hbit.1, hbit.2, hin, hword]
      · have hbit : ¬i % 64 ≤ stop % 64 - 1 ∧ stop % 64 ≤ i % 64 := by omega
        simp [hbit.1, hbit.2, hin, bit]
    · rw [if_neg hword, if_neg fun h => hword h.1]
  · rw [if_neg hpartial]
    exact .ok ⟨rfl, fun i _ => (if_neg (by omega)).symm⟩

/-- The bits of a range have the value, and other bits stay. -/
theorem setRangeValueMasks_returns (value : Bool) (hle : start ≤ stop) (hstop : stop ≤ 64 * ws.length) :
    Returns (setRangeValueMasks start stop value ws) fun out => out.length = ws.length ∧ ∀ i < 64 * ws.length,
      bit out i = if start ≤ i ∧ i < stop then value else bit ws i := by
  unfold setRangeValueMasks wordMaskIndex
  by_cases hempty : start = stop
  · rw [if_pos hempty]
    exact .ok ⟨rfl, fun i _ => (if_neg (by omega)).symm⟩
  rw [if_neg hempty]
  simp only
  by_cases hone : start / 64 = stop / 64
  · rw [if_pos hone, subFrom_ok (by omega)]
    exact setWord_returns value (by omega) hone hstop
  · rw [if_neg hone]
    refine (setFirst_returns value (by omega)).bind fun first hfirst => ?_
    generalize hbulk : (if 0 < start % 64 then start / 64 + 1 else start / 64) = bulk
    replace hbulk : (0 < start % 64 ∧ bulk = start / 64 + 1) ∨ (start % 64 = 0 ∧ bulk = start / 64) := by
      split at hbulk
      · exact .inl ⟨‹_›, hbulk.symm⟩
      · exact .inr ⟨by omega, hbulk.symm⟩
    rw [if_pos (show bulk ≤ stop / 64 by omega)]
    refine (writeWords_returns (boolMask value) (by rw [hfirst.1]; omega)).bind fun second hsecond => ?_
    have hlength : second.length = ws.length := hsecond.1.trans hfirst.1
    refine (setLast_returns value (by rwa [hlength])).mono fun out hout => ⟨hout.1.trans hlength, fun i hi => ?_⟩
    rw [hout.2 i (by rwa [hlength]), hsecond.2 i, hfirst.2 i hi, getLsbD_boolMask value (Nat.mod_lt i (by decide))]
    -- each place of the range is in one of the three parts
    by_cases hin : start ≤ i ∧ i < stop
    · rw [if_pos hin]
      split
      · rfl
      split
      · rfl
      · exact if_pos (by omega)
    · rw [if_neg hin, if_neg (by omega), if_neg (by omega), if_neg (by omega)]

end Funbun.Collections
