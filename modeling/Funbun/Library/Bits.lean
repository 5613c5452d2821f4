import Mathlib.Data.List.Perm.Subperm
import Mathlib.Data.List.Range
import Mathlib.Data.List.Sort

/-! The ones of a bit vector, as a set of places. -/
namespace Funbun.Library.Bits
variable {w : Nat}

/-- The places of the ones, from the lowest on -/
def ones (x : BitVec w) : List Nat := (List.range w).filter (x.getLsbD ·)

/-- `count_ones` -/
def countOnes (x : BitVec w) : Nat := (ones x).length

variable {x : BitVec w} {i : Nat}

theorem mem_ones : i ∈ ones x ↔ x.getLsbD i = true := by
  unfold ones
  rw [List.mem_filter, List.mem_range]
  exact and_iff_right_of_imp BitVec.lt_of_getLsbD

theorem nodup_ones (x : BitVec w) : (ones x).Nodup := List.nodup_range.filter _

/-! ### Ones in a range -/

/-- All ones are from `lo` to `hi`. -/
def Within (x : BitVec w) (lo hi : Nat) : Prop := ∀ i, x.getLsbD i = true → lo ≤ i ∧ i ≤ hi

variable {x : BitVec w} {lo hi : Nat}

instance : Decidable (Within x lo hi) :=
  decidable_of_iff (∀ i < w, x.getLsbD i = true → lo ≤ i ∧ i ≤ hi)
    ⟨fun h i hi => h i (BitVec.lt_of_getLsbD hi) hi, fun h i _ => h i⟩

theorem Within.subset (h : Within x lo hi) : ones x ⊆ List.range' lo (hi + 1 - lo) := by
  intro i hi'
  have := h i (mem_ones.1 hi')
  rw [List.mem_range'_1]
  omega

/-- As many ones as there are places are at all of them. -/
theorem Within.countOnes_eq_iff (h : Within x lo hi) :
    countOnes x = hi + 1 - lo ↔ ∀ i, lo ≤ i → i ≤ hi → x.getLsbD i = true := by
  have hsub : (ones x).Subperm (List.range' lo (hi + 1 - lo)) := (nodup_ones x).subperm h.subset
  constructor
  · intro hcount i hlo hhi
    have hlength : (List.range' lo (hi + 1 - lo)).length ≤ (ones x).length := by
      rw [List.length_range']
      exact Nat.le_of_eq hcount.symm
    have hperm := hsub.perm_of_length_le hlength
    apply mem_ones.1
    rw [hperm.mem_iff, List.mem_range'_1]
    omega
  · intro hall
    have hsub' : (List.range' lo (hi + 1 - lo)).Subperm (ones x) := by
      refine List.subperm_of_subset (List.nodup_range' ..) fun i hi' => mem_ones.2 ?_
      rw [List.mem_range'_1] at hi'
      exact hall i hi'.1 (by omega)
    have hle := hsub.length_le
    have hle' := hsub'.length_le
    rw [List.length_range'] at hle hle'
    exact Nat.le_antisymm hle hle'

/-! ### Setting one after the other -/

theorem getLsbD_one_shiftLeft {i j : Nat} : (1#w <<< i).getLsbD j = (decide (j = i) && decide (j < w)) := by
  rw [BitVec.getLsbD_shiftLeft, BitVec.getLsbD_one]
  by_cases hj : j < w
  · by_cases heq : j = i
    · subst heq
      simp [hj, Nat.zero_lt_of_lt hj]
    · simp only [hj, heq, decide_true, decide_false, Bool.true_and, Bool.false_and]
      by_cases hlt : j < i
      · simp [hlt]
      · simp [hlt, Nat.sub_ne_zero_of_lt (Nat.lt_of_le_of_ne (Nat.not_lt.1 hlt) (Ne.symm heq))]
  · simp [hj]

theorem getLsbD_foldl_or (is : List Nat) (x : BitVec w) (j : Nat) :
    (is.foldl (fun x i => x ||| 1#w <<< i) x).getLsbD j = (x.getLsbD j || (decide (j ∈ is) && decide (j < w))) := by
  induction is generalizing x with
  | nil => simp
  | cons i is ih =>
    rw [List.foldl_cons, ih, BitVec.getLsbD_or, getLsbD_one_shiftLeft, Bool.or_assoc, ← Bool.and_or_distrib_right]
    congr 2
    rw [Bool.eq_iff_iff]
    simp [List.mem_cons]

/-! ### The lowest and the highest one -/

/-- `trailing_zeros` -/
def trailingZeros (x : BitVec w) : Nat := (ones x).head?.getD w

/-- `leading_zeros` -/
def leadingZeros (x : BitVec w) : Nat := ((ones x).getLast?.map (w - 1 - ·)).getD w

theorem pairwise_ones (x : BitVec w) : (ones x).Pairwise (· < ·) := List.pairwise_lt_range.filter _

theorem ones_eq_nil_iff : ones x = [] ↔ x = 0 := by
  constructor
  · intro h
    apply BitVec.eq_of_getLsbD_eq
    intro i _
    have hi : i ∉ ones x := by simp [h]
    rw [mem_ones, Bool.not_eq_true] at hi
    simp [hi]
  · intro h
    unfold ones
    simp [h]

theorem lt_of_mem_ones (h : i ∈ ones x) : i < w := BitVec.lt_of_getLsbD (mem_ones.1 h)

/-- Below the lowest one there is a borrow, and at it a zero. -/
theorem getLsbD_and_sub_one {t : Nat} (ht : x.getLsbD t = true) (hlow : ∀ j < t, x.getLsbD j = false) (j : Nat) :
    (x &&& (x - 1#w)).getLsbD j = (x.getLsbD j && decide (j ≠ t)) := by
  have hw : t < w := BitVec.lt_of_getLsbD ht
  have hmod : x.toNat % 2 ^ (t + 1) = 2 ^ t := by
    apply Nat.eq_of_testBit_eq
    intro i
    rw [Nat.testBit_mod_two_pow, Nat.testBit_two_pow]
    by_cases hi : i = t
    · subst hi
      simpa [BitVec.getLsbD] using ht
    · by_cases hlt : i < t
      · have hbit := hlow i hlt
        rw [BitVec.getLsbD] at hbit
        simp [hbit, Ne.symm hi]
      · have hnot : ¬i < t + 1 := by omega
        simp [hnot, Ne.symm hi]
  have hsplit := Nat.div_add_mod x.toNat (2 ^ (t + 1))
  rw [hmod] at hsplit
  have hpos : 0 < 2 ^ t := Nat.two_pow_pos t
  have hone : (1#w).toNat = 1 := by
    rw [BitVec.toNat_ofNat, Nat.mod_eq_of_lt (Nat.one_lt_two_pow (by omega))]
  have hsub : (x - 1#w).toNat = 2 ^ (t + 1) * (x.toNat / 2 ^ (t + 1)) + (2 ^ t - 1) := by
    rw [BitVec.toNat_sub_of_le, hone]
    · omega
    · rw [BitVec.le_def, hone]
      omega
  have hlt : 2 ^ t < 2 ^ (t + 1) := Nat.pow_lt_pow_right (by decide) (Nat.lt_succ_self t)
  have hx : x.getLsbD j = if j < t + 1 then decide (t = j) else (x.toNat / 2 ^ (t + 1)).testBit (j - (t + 1)) := by
    rw [BitVec.getLsbD, ← hsplit, Nat.testBit_two_pow_mul_add _ hlt, Nat.testBit_two_pow, hsplit]
  have hx' : (x - 1#w).getLsbD j = if j < t + 1 then decide (j < t) else (x.toNat / 2 ^ (t + 1)).testBit (j - (t + 1)) := by
    rw [BitVec.getLsbD, hsub, Nat.testBit_two_pow_mul_add _ (by omega), Nat.testBit_two_pow_sub_one]
  rw [BitVec.getLsbD_and, hx, hx']
  by_cases hj : j < t + 1
  · rw [if_pos hj, if_pos hj]
    by_cases heq : j = t
    · simp [heq]
    · simp [Ne.symm heq]
  · rw [if_neg hj, if_neg hj]
    have hne : j ≠ t := by omega
    simp [hne]

theorem getLsbD_shift_sub_one {t : Nat} (ht : t < w) (j : Nat) : (1#w <<< t - 1#w).getLsbD j = decide (j < t) := by
  have hone : (1#w).toNat = 1 := by
    rw [BitVec.toNat_ofNat, Nat.mod_eq_of_lt (Nat.one_lt_two_pow (by omega))]
  have hshift : (1#w <<< t).toNat = 2 ^ t := by
    rw [BitVec.toNat_shiftLeft, hone, Nat.shiftLeft_eq, Nat.one_mul, Nat.mod_eq_of_lt (Nat.pow_lt_pow_right (by decide) ht)]
  have hpos : 0 < 2 ^ t := Nat.two_pow_pos t
  rw [BitVec.getLsbD, BitVec.toNat_sub_of_le, hone, hshift, Nat.testBit_two_pow_sub_one]
  rw [BitVec.le_def, hone, hshift]
  omega

variable {x : BitVec w} {t : Nat}

/-- The lowest one is taken away. -/
theorem ones_and_sub_one {rest : List Nat} (h : ones x = t :: rest) : ones (x &&& (x - 1#w)) = rest := by
  have hsorted := pairwise_ones x
  rw [h] at hsorted
  obtain ⟨hlow, hrest⟩ := List.pairwise_cons.1 hsorted
  have hone : x.getLsbD t = true := mem_ones.1 (by rw [h]; exact List.mem_cons_self)
  have hnone : ∀ j < t, x.getLsbD j = false := by
    intro j hj
    rw [← Bool.not_eq_true, ← mem_ones, h, List.mem_cons, not_or]
    exact ⟨by omega, fun hmem => absurd (hlow j hmem) (by omega)⟩
  refine (pairwise_ones _).eq_of_mem_iff hrest fun i => ?_
  rw [mem_ones, getLsbD_and_sub_one hone hnone, Bool.and_eq_true, ← mem_ones, h, decide_eq_true_eq, List.mem_cons]
  constructor
  · intro hi
    exact hi.1.resolve_left hi.2
  · intro hi
    exact ⟨.inr hi, fun heq => absurd (hlow i hi) (by omega)⟩

/-- The highest one is taken away. -/
theorem ones_and_below {init : List Nat} (h : ones x = init ++ [t]) : ones (x &&& (1#w <<< t - 1#w)) = init := by
  have hsorted := pairwise_ones x
  rw [h] at hsorted
  obtain ⟨hinit, -, hlast⟩ := List.pairwise_append.1 hsorted
  have ht : t < w := lt_of_mem_ones (by rw [h]; exact List.mem_append_right _ (List.mem_singleton_self t))
  refine (pairwise_ones _).eq_of_mem_iff hinit fun i => ?_
  rw [mem_ones, BitVec.getLsbD_and, getLsbD_shift_sub_one ht, Bool.and_eq_true, ← mem_ones, h, decide_eq_true_eq, List.mem_append,
    List.mem_singleton]
  constructor
  · intro hi
    exact hi.1.resolve_right (by omega)
  · intro hi
    exact ⟨.inl hi, hlast i hi t (List.mem_singleton_self t)⟩

end Funbun.Library.Bits
