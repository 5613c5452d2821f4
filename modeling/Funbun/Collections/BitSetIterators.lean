import Funbun.Collections.BitSetReading

/-! An iterator gives the places of the words that it has still to load, after those of the word that it has loaded. -/
namespace Funbun.Collections
open Library Library.Bits Library.Words

namespace BitSetIterator
variable {kindSet dirFwd : Bool} {it : BitSetIterator}

/-- A word that is not masked -/
def flip (kindSet : Bool) (w : Word) : Word := if kindSet then w else ~~~w

/-- The words as they are loaded, the last one without its padding -/
def loaded (kindSet : Bool) (mask : Word) : List Word → List Word
  | [] => []
  | w :: ws => (if kindSet then w else if ws = [] then ~~~w &&& mask else ~~~w) :: loaded kindSet mask ws

theorem loaded_append (mask x : Word) (ws : List Word) :
    loaded kindSet mask (ws ++ [x]) = ws.map (flip kindSet) ++ [if kindSet then x else ~~~x &&& mask] := by
  induction ws with
  | nil => simp [loaded]
  | cons w ws ih =>
    rw [List.cons_append, loaded, ih]
    simp [flip]

theorem loaded_true (mask : Word) (ws : List Word) : loaded true mask ws = ws := by
  induction ws with
  | nil => rfl
  | cons w ws ih =>
    rw [loaded, ih]
    rfl

theorem loaded_false (mask : Word) : ∀ ws : List Word,
    loaded false mask ws = (ws.map fun w => ~~~w).modify (ws.length - 1) fun m => m &&& mask
  | [] => rfl
  | [w] => by simp [loaded]
  | w :: v :: ws => by
    rw [loaded, loaded_false mask (v :: ws)]
    simp

/-- What is still to be given -/
def left (kindSet dirFwd : Bool) (it : BitSetIterator) : List Nat :=
  if dirFwd then
    (ones it.bitsRemain).map (· + it.bitOffset) ++ places (it.bitOffset + 64) (loaded kindSet it.lastWordMask it.wordsRemain)
  else (places 0 (it.wordsRemain.map (flip kindSet)) ++ (ones it.bitsRemain).map (· + it.bitOffset)).reverse

/-- Downward, the offset is that of the words that remain. -/
def Placed (dirFwd : Bool) (it : BitSetIterator) : Prop := dirFwd = false → it.bitOffset = 64 * it.wordsRemain.length

/-! ### Loading -/

theorem nextWord_forward (isFirstWord : Bool) {w : Word} {ws : List Word} (hwords : it.wordsRemain = w :: ws) :
    nextWord kindSet true isFirstWord it = .ok { it with
      wordsRemain := ws
      bitsRemain := if kindSet then w else if ws = [] then ~~~w &&& it.lastWordMask else ~~~w } := by
  unfold nextWord
  rw [hwords]
  simp [takeWord, bind, Except.bind]

theorem nextWord_reverse (isFirstWord : Bool) {x : Word} {ws : List Word} (hwords : it.wordsRemain = ws ++ [x]) :
    nextWord kindSet false isFirstWord it = .ok { it with
      wordsRemain := ws
      bitsRemain := if kindSet then x else if isFirstWord then ~~~x &&& it.lastWordMask else ~~~x } := by
  have htake : takeWord false (ws ++ [x]) = .ok (x, ws) := by
    cases hsplit : ws ++ [x] with
    | nil => simp at hsplit
    | cons w vs =>
      have hlast : (w :: vs).getLast (List.cons_ne_nil w vs) = x := by
        simp only [← hsplit, List.getLast_append_singleton]
      have hinit : (w :: vs).dropLast = ws := by
        rw [← hsplit, List.dropLast_concat]
      simp only [takeWord]
      rw [if_neg Bool.false_ne_true, hlast, hinit]
  unfold nextWord
  rw [hwords, htake]
  simp [bind, Except.bind]

/-- A turn of the loop, where the word has no more ones: what is left stays. -/
theorem turn_returns (hplaced : Placed dirFwd it) (hbits : it.bitsRemain = 0) (hwords : it.wordsRemain ≠ []) :
    Returns (nextWord kindSet dirFwd false it) fun it' =>
      Returns (if dirFwd then .ok (it'.bitOffset + 64) else subFrom it'.bitOffset 64) fun bitOffset =>
        left kindSet dirFwd { it' with bitOffset } = left kindSet dirFwd it ∧ Placed dirFwd { it' with bitOffset } ∧
          it'.wordsRemain.length + 1 = it.wordsRemain.length := by
  have hones : ones it.bitsRemain = [] := ones_eq_nil_iff.2 hbits
  cases dirFwd with
  | true =>
    cases hsplit : it.wordsRemain with
    | nil => exact absurd hsplit hwords
    | cons w ws =>
      rw [nextWord_forward false hsplit]
      refine .ok (.ok ⟨?_, fun h => absurd h.symm Bool.false_ne_true, rfl⟩)
      unfold left
      rw [if_pos rfl, if_pos rfl, hsplit, hones, loaded, places]
      rfl
  | false =>
    obtain ⟨ws, x, hsplit⟩ := List.eq_nil_or_concat' it.wordsRemain |>.resolve_left hwords
    have hoffset : it.bitOffset = 64 * ws.length + 64 := by
      rw [hplaced rfl, hsplit, List.length_append, List.length_singleton, Nat.mul_add_one]
    rw [nextWord_reverse false hsplit]
    refine .ok ⟨64 * ws.length, ?_, ?_, fun _ => rfl, ?_⟩
    · rw [if_neg Bool.false_ne_true, subFrom_ok (by simp only; omega)]
      simp only
      rw [hoffset, Nat.add_sub_cancel]
    · unfold left
      rw [if_neg Bool.false_ne_true, if_neg Bool.false_ne_true, hsplit, hones, List.map_append, places_append (by decide)]
      simp [places, flip]
    · rw [hsplit, List.length_append, List.length_singleton]

/-- The loop ends with a word that has ones, or where there is nothing left. -/
theorem loadWord_returns : ∀ (turns : Nat) {it : BitSetIterator}, Placed dirFwd it → it.wordsRemain.length ≤ turns →
    Returns (loadWord kindSet dirFwd turns it) fun r =>
      (r = none ∧ left kindSet dirFwd it = []) ∨
      ∃ it', r = some it' ∧ it'.bitsRemain ≠ 0 ∧ left kindSet dirFwd it' = left kindSet dirFwd it ∧ Placed dirFwd it'
  | turns, it, hplaced, hturns => by
    unfold loadWord
    by_cases hbits : it.bitsRemain = 0
    · rw [if_neg (not_not.2 hbits)]
      by_cases hwords : it.wordsRemain = []
      · rw [if_pos hwords]
        refine .ok (.inl ⟨rfl, ?_⟩)
        unfold left
        rw [hwords, hbits, ones_eq_nil_iff.2 rfl]
        simp [loaded, places]
      · rw [if_neg hwords]
        cases turns with
        | zero => exact absurd (List.length_eq_zero_iff.1 (Nat.le_zero.1 hturns)) hwords
        | succ turns =>
          refine (turn_returns hplaced hbits hwords).bind fun it' hit' => hit'.bind fun bitOffset hturn => ?_
          obtain ⟨hleft, hplaced', hlength⟩ := hturn
          have ih := loadWord_returns turns hplaced' (by simp only; omega)
          rwa [hleft] at ih
    · rw [if_pos hbits]
      exact .ok (.inr ⟨it, rfl, hbits, rfl, hplaced⟩)

/-! ### Giving -/

/-- The first number that is left is given, or nothing where nothing is left. -/
theorem next_returns (hplaced : Placed dirFwd it) : Returns (next kindSet dirFwd it) fun given =>
    (given = none ∧ left kindSet dirFwd it = []) ∨
    ∃ i it', given = some (i, it') ∧ left kindSet dirFwd it = i :: left kindSet dirFwd it' ∧ Placed dirFwd it' := by
  unfold next
  refine (loadWord_returns it.wordsRemain.length hplaced (Nat.le_refl _)).bind fun r hr => ?_
  rcases hr with hr | hr
  · obtain ⟨rfl, hleft⟩ := hr
    exact .ok (.inl ⟨rfl, hleft⟩)
  · obtain ⟨it', rfl, hbits, hleft, hplaced'⟩ := hr
    have hones : ones it'.bitsRemain ≠ [] := fun h => hbits (ones_eq_nil_iff.1 h)
    rw [← hleft]
    cases dirFwd with
    | true =>
      cases hsplit : ones it'.bitsRemain with
      | nil => exact absurd hsplit hones
      | cons t rest =>
        have hlow : trailingZeros it'.bitsRemain = t := by
          rw [trailingZeros, hsplit]
          rfl
        have hrest : ones (it'.bitsRemain &&& (it'.bitsRemain - 1)) = rest := ones_and_sub_one hsplit
        refine .ok (.inr ⟨_, _, rfl, ?_, fun h => absurd h.symm Bool.false_ne_true⟩)
        unfold left
        rw [if_pos rfl, if_pos rfl, hrest, hsplit, hlow]
        rfl
    | false =>
      obtain ⟨init, t, hsplit⟩ := List.eq_nil_or_concat' (ones it'.bitsRemain) |>.resolve_left hones
      have hlt : t < 64 := lt_of_mem_ones (x := it'.bitsRemain) (by simp [hsplit])
      have htop : 63 - leadingZeros it'.bitsRemain = t := by
        rw [leadingZeros, hsplit, List.getLast?_concat]
        show 63 - (63 - t) = t
        omega
      have hrest : ones (it'.bitsRemain &&& (1#64 <<< t - 1)) = init := ones_and_below hsplit
      refine .ok (.inr ⟨_, _, rfl, ?_, hplaced'⟩)
      unfold left
      rw [if_neg Bool.false_ne_true, if_neg Bool.false_ne_true, htop, hrest, hsplit]
      simp

/-- One call after the other gives what is left, in its order. -/
theorem toList_returns : ∀ (calls : Nat) {it : BitSetIterator}, Placed dirFwd it → (left kindSet dirFwd it).length < calls →
    toList kindSet dirFwd calls it = .ok (left kindSet dirFwd it)
  | 0, _, _, hcalls => absurd hcalls (Nat.not_lt_zero _)
  | calls + 1, it, hplaced, hcalls => by
    unfold toList
    obtain ⟨given, hgiven, hspec⟩ := next_returns hplaced
    rw [hgiven]
    rcases hspec with hnone | hsome
    · obtain ⟨rfl, hleft⟩ := hnone
      rw [hleft]
      rfl
    · obtain ⟨i, it', rfl, hleft, hplaced'⟩ := hsome
      rw [hleft, List.length_cons] at hcalls
      have ih := toList_returns calls hplaced' (Nat.lt_of_succ_lt_succ hcalls)
      simp only [bind, Except.bind]
      rw [ih, hleft]

/-- At first, all places of the words are left. -/
theorem init_returns (kindSet dirFwd : Bool) (masks : List Word) (mask : Word) :
    Returns (init kindSet dirFwd masks mask) fun it => Placed dirFwd it ∧
      left kindSet dirFwd it = if dirFwd then places 0 (loaded kindSet mask masks) else (places 0 (loaded kindSet mask masks)).reverse := by
  unfold init
  by_cases hmasks : masks = []
  · rw [if_pos hmasks, hmasks]
    refine .ok ⟨fun _ => rfl, ?_⟩
    unfold left
    rw [show ones (0 : Word) = [] from ones_eq_nil_iff.2 rfl]
    simp [loaded, places]
  · rw [if_neg hmasks]
    cases dirFwd with
    | true =>
      cases masks with
      | nil => exact absurd rfl hmasks
      | cons w ws =>
        rw [nextWord_forward true rfl]
        refine .ok ⟨fun h => absurd h.symm Bool.false_ne_true, ?_⟩
        unfold left
        rw [if_pos rfl, if_pos rfl, loaded, places]
        rfl
    | false =>
      obtain ⟨ws, x, rfl⟩ := List.eq_nil_or_concat' masks |>.resolve_left hmasks
      have hoffset : ((ws ++ [x]).length - 1) * 64 = 64 * ws.length := by
        rw [List.length_append, List.length_singleton, Nat.add_sub_cancel, Nat.mul_comm]
      rw [nextWord_reverse true rfl]
      refine .ok ⟨fun _ => hoffset, ?_⟩
      unfold left
      rw [if_neg Bool.false_ne_true, if_neg Bool.false_ne_true, loaded_append, places_append (by decide)]
      simp [places, Nat.mul_comm]

end BitSetIterator

namespace DynamicBitSetUnmanaged
open BitSetIterator
variable {s : DynamicBitSetUnmanaged} {a : IndexSet}

/-- The words that are loaded have the members, or the numbers below the length that are none. -/
theorem Good.places_loaded (h : Good s a) (kindSet : Bool) :
    places 0 (loaded kindSet (lastItemMask s.bitLength) s.masks) = a.ascending kindSet := by
  cases kindSet with
  | true => rw [loaded_true, h.places_masks]
  | false =>
    refine (pairwise_places _ 0).eq_of_mem_iff (a.pairwise_ascending false) fun i => ?_
    rw [Words.mem_places (by decide), Nat.sub_zero, and_iff_right (Nat.zero_le i), a.mem_ascending, loaded_false]
    by_cases hzero : s.bitLength = 0
    · have hmasks : s.masks = [] := by
        rw [← List.length_eq_zero_iff, h.length_masks, ← h.length, hzero]
        rfl
      rw [← h.length, hmasks, hzero]
      simp [bit]
    · have hlength : (s.masks.map fun w => ~~~w).length = numMasks s.bitLength := by
        rw [List.length_map, h.length_masks, h.length]
      obtain ⟨out, hout, houtLength, hbits⟩ := maskLast_returns hzero hlength
      rw [modifyWord, if_pos (by rw [hlength]; exact Nat.sub_lt (numMasks_pos hzero) Nat.one_pos)] at hout
      have hmask : (s.masks.map fun w => ~~~w).modify (s.masks.length - 1) (fun m => m &&& lastItemMask s.bitLength) = out := by
        rw [h.length_masks, ← h.length]
        exact Except.ok.inj hout
      have hnot : ∀ i < 64 * s.masks.length, bit (s.masks.map fun w => ~~~w) i = !decide (i ∈ a.members) := by
        intro i hi
        rw [← h.bit_eq]
        refine bit_map (g := fun value => !value) (fun x j hj => ?_) (by decide) hi
        rw [BitVec.getLsbD_not, decide_eq_true hj, Bool.true_and]
      rw [hmask]
      rw [List.length_map] at hbits houtLength
      constructor
      · intro hi
        have hlt := lt_of_bit hi
        rw [houtLength] at hlt
        rw [hbits i hlt, hnot i hlt, Bool.and_eq_true, decide_eq_true_eq, h.length] at hi
        exact ⟨hi.2, by simpa using hi.1⟩
      · intro hi
        have hlt := h.lt_masks hi.1
        rw [hbits i hlt, hnot i hlt, h.length, hi.2, decide_eq_true hi.1]
        rfl

/-- Each mode gives every number once, in order. -/
theorem Good.iterator (h : Good s a) (kindSet dirFwd : Bool) : Returns (s.iterator kindSet dirFwd) fun it =>
    ∀ calls > a.length, BitSetIterator.toList kindSet dirFwd calls it =
      .ok (if dirFwd then a.ascending kindSet else (a.ascending kindSet).reverse) := by
  unfold DynamicBitSetUnmanaged.iterator
  rw [h.masksSlice]
  refine (init_returns kindSet dirFwd s.masks (lastItemMask s.bitLength)).mono fun it hit calls hcalls => ?_
  obtain ⟨hplaced, hleft⟩ := hit
  rw [h.places_loaded] at hleft
  have hlength : (left kindSet dirFwd it).length ≤ a.length := by
    have hfilter : (a.ascending kindSet).length ≤ a.length := by
      unfold IndexSet.ascending
      exact (List.length_filter_le ..).trans_eq List.length_range
    rw [hleft]
    cases dirFwd with
    | true => exact hfilter
    | false => simpa using hfilter
  rw [toList_returns calls hplaced (Nat.lt_of_le_of_lt hlength hcalls), hleft]

end DynamicBitSetUnmanaged

end Funbun.Collections
