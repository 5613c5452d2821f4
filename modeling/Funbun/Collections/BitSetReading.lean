import Mathlib.Data.List.Zip
import Funbun.Collections.BitSetProofs

/-! What is read of a set is what its members are. -/
namespace Funbun.Collections
open Library Library.Bits Library.Words

/-! ### The first one -/

/-- The loop over words finds the first of their places. -/
theorem firstSet_eq : ∀ (ws : List Word) (offset : Nat), DynamicBitSetUnmanaged.firstSet offset ws = (places offset ws).head?
  | [], _ => rfl
  | m :: ws, offset => by
    unfold DynamicBitSetUnmanaged.firstSet
    rw [places]
    cases hones : ones m with
    | nil => rw [if_neg (not_not.2 (ones_eq_nil_iff.1 hones)), firstSet_eq ws, List.map_nil, List.nil_append]
    | cons t rest =>
      have hne : m ≠ 0 := by
        intro hzero
        rw [ones_eq_nil_iff.2 hzero] at hones
        exact absurd hones (List.cons_ne_nil t rest).symm
      rw [if_pos hne, trailingZeros, hones, List.map_cons, List.cons_append, List.head?_cons, List.head?_cons, Option.getD_some,
        Nat.add_comm]

theorem length_clearFirst : ∀ ws : List Word, (DynamicBitSetUnmanaged.clearFirst ws).length = ws.length
  | [] => rfl
  | m :: ws => by
    unfold DynamicBitSetUnmanaged.clearFirst
    by_cases hne : m ≠ 0
    · rw [if_pos hne, List.length_cons, List.length_cons]
    · rw [if_neg hne, List.length_cons, List.length_cons, length_clearFirst ws]

/-- Without the first one, the other places are there. -/
theorem places_clearFirst : ∀ (ws : List Word) (offset : Nat),
    places offset (DynamicBitSetUnmanaged.clearFirst ws) = (places offset ws).tail
  | [], _ => rfl
  | m :: ws, offset => by
    unfold DynamicBitSetUnmanaged.clearFirst
    cases hones : ones m with
    | nil =>
      rw [if_neg (not_not.2 (ones_eq_nil_iff.1 hones)), places, places, hones, places_clearFirst ws, List.map_nil, List.nil_append,
        List.nil_append]
    | cons t rest =>
      have hne : m ≠ 0 := by
        intro hzero
        rw [ones_eq_nil_iff.2 hzero] at hones
        exact absurd hones (List.cons_ne_nil t rest).symm
      have hcleared : ones (m &&& (m - 1)) = rest := ones_and_sub_one hones
      rw [if_pos hne, places, places, hones, hcleared, List.map_cons, List.cons_append, List.tail_cons]

namespace DynamicBitSetUnmanaged
variable {s t : DynamicBitSetUnmanaged} {a b : IndexSet}

theorem Good.places_masks (h : Good s a) : places 0 s.masks = a.ascending true := by
  refine (pairwise_places _ 0).eq_of_mem_iff (a.pairwise_ascending true) fun i => ?_
  rw [h.represents.mem_places (by decide), IndexSet.mem_ascending, decide_eq_true_eq]
  exact (and_iff_right_of_imp (a.lt i)).symm

theorem Good.findFirstSet (h : Good s a) : s.findFirstSet = .ok a.least := by
  unfold DynamicBitSetUnmanaged.findFirstSet
  rw [h.masksSlice]
  simp only [bind, Except.bind]
  rw [firstSet_eq, h.places_masks]
  rfl

/-- The least member is given, and it is no member after that. -/
theorem Good.toggleFirstSet (h : Good s a) :
    Returns s.toggleFirstSet fun r => r.1 = a.least ∧ Good r.2 a.toggleLeast := by
  unfold DynamicBitSetUnmanaged.toggleFirstSet
  rw [h.masksSlice]
  have hbits : ∀ i < 64 * s.masks.length, bit (clearFirst s.masks) i = true ↔ i ∈ (a.ascending true).tail := by
    intro i hi
    rw [← h.places_masks, ← places_clearFirst, Words.mem_places (by decide), Nat.sub_zero]
    exact (and_iff_right (Nat.zero_le i)).symm
  have hwrite : Returns (s.updateMasks fun masks => .ok (clearFirst masks)) fun s' => Good s' a.toggleLeast := by
    have hsorted := a.pairwise_ascending true
    unfold IndexSet.toggleLeast IndexSet.least
    cases hasc : a.ascending true with
    | nil =>
      have hnone : ∀ i, i ∉ a.members := by
        intro i hi
        have hmem : i ∈ a.ascending true := a.mem_ascending.2 ⟨a.lt i hi, decide_eq_true hi⟩
        rw [hasc] at hmem
        exact absurd hmem List.not_mem_nil
      rw [List.head?_nil, ← a.below_self]
      refine h.write (.ok ⟨length_clearFirst _, fun i hi => ?_⟩)
      rw [hbits i hi, hasc]
      simp [hnone i]
    | cons first rest =>
      rw [hasc] at hsorted hbits
      rw [List.head?_cons]
      refine h.write (.ok ⟨length_clearFirst _, fun i hi => ?_⟩)
      have hmem : i ∈ first :: rest ↔ i < a.length ∧ i ∈ a.members := by
        rw [← hasc, a.mem_ascending, decide_eq_true_eq]
      have hfirst := (List.pairwise_cons.1 hsorted).1
      rw [hbits i hi, List.tail_cons, Finset.mem_erase]
      constructor
      · intro hrest
        have hboth := hmem.1 (List.mem_cons_of_mem first hrest)
        exact ⟨⟨Nat.ne_of_gt (hfirst i hrest), hboth.2⟩, hboth.1⟩
      · intro hboth
        exact (List.mem_cons.1 (hmem.2 ⟨hboth.2, hboth.1.2⟩)).resolve_left hboth.1.1
  obtain ⟨s', hs', hgood⟩ := hwrite
  refine ⟨(firstSet 0 s.masks, s'), ?_, ?_, hgood⟩
  · simp only [bind, Except.bind]
    rw [hs']
  · show firstSet 0 s.masks = a.least
    rw [firstSet_eq, h.places_masks]
    rfl

/-! ### Members and their number -/

theorem Good.isSet (h : Good s a) {index : Nat} (hindex : index < a.length) : s.isSet index = .ok (decide (index ∈ a.members)) := by
  have hword : wordMaskIndex index < s.masks.length := div_lt (by decide) (h.lt_masks hindex)
  have hbit : (s.masks[wordMaskIndex index] &&& wordMaskBit index != 0) = bit s.masks index := by
    rw [bit_of_lt hword, Bool.eq_iff_iff, bne_iff_ne, ne_eq, ← ones_eq_nil_iff, List.eq_nil_iff_forall_not_mem, not_forall]
    have hmod := Nat.mod_lt index (show 0 < 64 by decide)
    constructor
    · intro hany
      obtain ⟨j, hj⟩ := hany
      rw [not_not, mem_ones, BitVec.getLsbD_and, Bool.and_eq_true] at hj
      have hplace : j = index % 64 := by
        have := hj.2
        rwa [getLsbD_wordMaskBit index (BitVec.lt_of_getLsbD this), decide_eq_true_eq] at this
      exact hplace ▸ hj.1
    · intro hone
      refine ⟨index % 64, ?_⟩
      rw [not_not, mem_ones, BitVec.getLsbD_and, getLsbD_wordMaskBit index hmod, Bool.and_eq_true]
      exact ⟨hone, decide_eq_true rfl⟩
  unfold DynamicBitSetUnmanaged.isSet
  rw [h.masksSlice]
  simp only [bind, Except.bind]
  rw [indexAt_ok hword]
  simp only
  rw [hbit, h.bit_eq]

theorem Good.isSetAllowOutOfBound (h : Good s a) (index : Nat) (outOfBounds : Bool) :
    s.isSetAllowOutOfBound index outOfBounds =
      .ok (if index < a.length then decide (index ∈ a.members) else outOfBounds) := by
  unfold DynamicBitSetUnmanaged.isSetAllowOutOfBound
  rw [h.length]
  by_cases hindex : index < a.length
  · rw [if_neg (Nat.not_le.2 hindex), if_pos hindex, h.isSet hindex]
  · rw [if_pos (Nat.not_lt.1 hindex), if_neg hindex]

theorem Good.count (h : Good s a) : s.count = .ok a.members.card := by
  unfold DynamicBitSetUnmanaged.count
  rw [h.masksSlice]
  simp only [bind, Except.bind]
  rw [h.represents.sum_countOnes (by decide)]

/-! ### Two sets -/

theorem Good.length_masks_eq (h : Good s a) (h' : Good t b) (hlength : a.length = b.length) : s.masks.length = t.masks.length := by
  rw [h.length_masks, h'.length_masks, hlength]

theorem Good.eql (h : Good s a) (h' : Good t b) : Returns (s.eql t) fun same => same = true ↔ a = b := by
  unfold DynamicBitSetUnmanaged.eql
  rw [h.length, h'.length]
  by_cases hlength : a.length = b.length
  · rw [if_neg (not_not.2 hlength), h.masksSlice, h'.masksSlice]
    refine .ok ?_
    rw [beq_iff_eq]
    constructor
    · intro hmasks
      refine IndexSet.ext hlength (Finset.ext fun i => ?_)
      rw [← h.represents i, ← h'.represents i, hmasks]
    · intro heq
      refine Words.ext (by decide) (h.length_masks_eq h' hlength) fun i => ?_
      rw [h.bit_eq, h'.bit_eq, heq]
  · rw [if_pos hlength]
    exact .ok ⟨fun h => absurd h Bool.false_ne_true, fun heq => absurd (congrArg IndexSet.length heq) hlength⟩

/-- The bits of one word that are ones in the other, too -/
theorem and_beq_iff {x y : Word} : ((x &&& y == x) = true ↔ ∀ j < 64, x.getLsbD j = true → y.getLsbD j = true) := by
  rw [beq_iff_eq]
  constructor
  · intro h j _ hj
    rw [← h, BitVec.getLsbD_and, Bool.and_eq_true] at hj
    exact hj.2
  · intro h
    apply BitVec.eq_of_getLsbD_eq
    intro j hj
    rw [BitVec.getLsbD_and, Bool.and_eq_left_iff_imp]
    exact h j hj

theorem Good.subsetOf (h : Good s a) (h' : Good t b) :
    Returns (s.subsetOf t) fun subset => subset = true ↔ a.length = b.length ∧ a.members ⊆ b.members := by
  unfold DynamicBitSetUnmanaged.subsetOf
  rw [h.length, h'.length]
  by_cases hlength : a.length = b.length
  · rw [if_neg (not_not.2 hlength), h.masksSlice, h'.masksSlice]
    refine .ok ?_
    rw [all_zip (q := fun x y => x = true → y = true) (fun x y => and_beq_iff) (by decide) (h.length_masks_eq h' hlength),
      and_iff_right hlength]
    constructor
    · intro hall i hi
      exact (h'.represents i).1 (hall i (h.lt_masks (a.lt i hi)) ((h.represents i).2 hi))
    · exact fun hsub i _ hi => (h'.represents i).2 (hsub ((h.represents i).1 hi))
  · rw [if_pos hlength]
    exact .ok ⟨fun h => absurd h Bool.false_ne_true, fun hsub => absurd hsub.1 hlength⟩

theorem Good.supersetOf (h : Good s a) (h' : Good t b) :
    Returns (s.supersetOf t) fun superset => superset = true ↔ a.length = b.length ∧ b.members ⊆ a.members := by
  have heq : s.supersetOf t = t.subsetOf s := by
    unfold DynamicBitSetUnmanaged.supersetOf DynamicBitSetUnmanaged.subsetOf
    rw [h.masksSlice, h'.masksSlice]
    simp only [bind, Except.bind, ne_comm (a := s.bitLength)]
    rw [← List.zip_swap, List.all_map]
    simp only [Function.comp_def, Prod.fst_swap, Prod.snd_swap, BitVec.and_comm]
  rw [heq, eq_comm (a := a.length)]
  exact h'.subsetOf h

end DynamicBitSetUnmanaged

end Funbun.Collections
