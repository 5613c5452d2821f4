import Mathlib.Algebra.GroupWithZero.Nat
import Mathlib.Data.Finset.Card
import Mathlib.Data.List.Flatten
import Funbun.Library.Bits

/-! Words one after the other, as one set of places. -/
namespace Funbun.Library.Words
open Bits
variable {w : Nat}

/-- The bit at a place. There are none behind the last word. -/
def bit (ws : List (BitVec w)) (i : Nat) : Bool := (ws[i / w]?.getD 0).getLsbD (i % w)

variable {ws vs : List (BitVec w)} {i : Nat}

theorem lt_of_bit (h : bit ws i = true) : i < w * ws.length := by
  unfold bit at h
  by_cases hi : i / w < ws.length
  · have hw : 0 < w := Nat.zero_lt_of_lt (BitVec.lt_of_getLsbD h)
    exact Nat.mul_comm .. ▸ (Nat.div_lt_iff_lt_mul hw).1 hi
  · rw [List.getElem?_eq_none (Nat.not_lt.1 hi)] at h
    simp at h

theorem bit_of_lt (hi : i / w < ws.length) : bit ws i = ws[i / w].getLsbD (i % w) := by
  unfold bit
  rw [List.getElem?_eq_getElem hi, Option.getD_some]

theorem div_lt (hw : 0 < w) (hi : i < w * ws.length) : i / w < ws.length := (Nat.div_lt_iff_lt_mul hw).2 (Nat.mul_comm .. ▸ hi)

theorem bit_cons (hw : 0 < w) (x : BitVec w) : bit (x :: ws) i = if i < w then x.getLsbD i else bit ws (i - w) := by
  unfold bit
  by_cases hi : i < w
  · rw [if_pos hi, Nat.div_eq_of_lt hi, Nat.mod_eq_of_lt hi]
    rfl
  · obtain ⟨j, rfl⟩ := Nat.exists_eq_add_of_le (Nat.not_lt.1 hi)
    rw [if_neg hi, Nat.add_sub_cancel_left, Nat.add_mod_left, Nat.add_div_left j hw, List.getElem?_cons_succ]

/-- Words of the same bits are the same. -/
theorem ext (hw : 0 < w) (hlength : ws.length = vs.length) (h : ∀ i, bit ws i = bit vs i) : ws = vs := by
  refine List.ext_getElem hlength fun k hk hk' => ?_
  apply BitVec.eq_of_getLsbD_eq
  intro j hj
  have hbit := h (w * k + j)
  unfold bit at hbit
  rw [Nat.mul_add_div hw, Nat.div_eq_of_lt hj, Nat.add_zero, Nat.mul_add_mod, Nat.mod_eq_of_lt hj, List.getElem?_eq_getElem hk,
    List.getElem?_eq_getElem hk'] at hbit
  exact hbit

/-! ### Changing words -/

theorem bit_map {f : BitVec w → BitVec w} {g : Bool → Bool} (hf : ∀ x j, j < w → (f x).getLsbD j = g (x.getLsbD j)) (hw : 0 < w)
    (hi : i < w * ws.length) : bit (ws.map f) i = g (bit ws i) := by
  have hlt := div_lt hw hi
  rw [bit_of_lt hlt, bit_of_lt (by rw [List.length_map]; exact hlt), List.getElem_map, hf _ _ (Nat.mod_lt i hw)]

theorem bit_zipWith {f : BitVec w → BitVec w → BitVec w} {g : Bool → Bool → Bool}
    (hf : ∀ x y j, j < w → (f x y).getLsbD j = g (x.getLsbD j) (y.getLsbD j)) (hw : 0 < w) (hle : ws.length ≤ vs.length)
    (hi : i < w * ws.length) : bit (List.zipWith f ws vs) i = g (bit ws i) (bit vs i) := by
  have hlt := div_lt hw hi
  have hlt' : i / w < vs.length := Nat.lt_of_lt_of_le hlt hle
  rw [bit_of_lt hlt, bit_of_lt hlt', bit_of_lt (by rw [List.length_zipWith]; exact lt_min hlt hlt'), List.getElem_zipWith,
    hf _ _ _ (Nat.mod_lt i hw)]

theorem bit_modify (f : BitVec w → BitVec w) {k : Nat} (hi : i < w * ws.length) (hw : 0 < w) :
    bit (ws.modify k f) i = if i / w = k then (f (ws[i / w]?.getD 0)).getLsbD (i % w) else bit ws i := by
  have hlt := div_lt hw hi
  rw [bit_of_lt (by rw [List.length_modify]; exact hlt), List.getElem_modify, bit_of_lt hlt, List.getElem?_eq_getElem hlt,
    Option.getD_some]
  by_cases hk : k = i / w
  · rw [if_pos hk, if_pos hk.symm]
  · rw [if_neg hk, if_neg fun h => hk h.symm]

theorem bit_take (hw : 0 < w) {n : Nat} (hi : i < w * n) : bit (ws.take n) i = bit ws i := by
  unfold bit
  rw [List.getElem?_take_of_lt ((Nat.div_lt_iff_lt_mul hw).2 (Nat.mul_comm .. ▸ hi))]

/-- What all words of two lists have is what all their bits have. -/
theorem all_zip {p : BitVec w → BitVec w → Bool} {q : Bool → Bool → Prop}
    (hp : ∀ x y, p x y = true ↔ ∀ j < w, q (x.getLsbD j) (y.getLsbD j)) (hw : 0 < w) :
    ∀ {ws vs : List (BitVec w)}, ws.length = vs.length →
      ((ws.zip vs).all (fun m => p m.1 m.2) = true ↔ ∀ i < w * ws.length, q (bit ws i) (bit vs i))
  | [], _, _ => by simp
  | x :: ws, [], h => by simp at h
  | x :: ws, y :: vs, h => by
    have ih := all_zip hp hw (Nat.succ.inj h)
    rw [List.zip_cons_cons, List.all_cons, Bool.and_eq_true, hp, ih, List.length_cons, Nat.mul_add_one]
    constructor
    · intro hall i hi
      rw [bit_cons hw, bit_cons hw]
      by_cases hlt : i < w
      · rw [if_pos hlt, if_pos hlt]
        exact hall.1 i hlt
      · rw [if_neg hlt, if_neg hlt]
        exact hall.2 (i - w) (by omega)
    · intro hall
      constructor
      · intro j hj
        have hbit := hall j (by omega)
        rwa [bit_cons hw, bit_cons hw, if_pos hj, if_pos hj] at hbit
      · intro i hi
        have hbit := hall (i + w) (by omega)
        rwa [bit_cons hw, bit_cons hw, if_neg (by omega), if_neg (by omega), Nat.add_sub_cancel] at hbit

/-! ### The places in their order -/

/-- The places of the ones, from `offset` on -/
def places (offset : Nat) : List (BitVec w) → List Nat
  | [] => []
  | x :: ws => (ones x).map (· + offset) ++ places (offset + w) ws

theorem places_append (hw : 0 < w) (vs : List (BitVec w)) : ∀ (ws : List (BitVec w)) (offset : Nat),
    places offset (ws ++ vs) = places offset ws ++ places (offset + w * ws.length) vs
  | [], offset => by simp [places]
  | x :: ws, offset => by
    have hoffset : offset + w + w * ws.length = offset + w * (ws.length + 1) := by
      rw [Nat.mul_add_one]
      omega
    rw [List.cons_append, places, places, places_append hw vs ws, List.append_assoc, hoffset, List.length_cons]

theorem mem_places (hw : 0 < w) : ∀ {ws : List (BitVec w)} {offset i : Nat}, i ∈ places offset ws ↔ offset ≤ i ∧ bit ws (i - offset) = true
  | [], offset, i => by
    simp [places, bit]
  | x :: ws, offset, i => by
    have ih : i ∈ places (offset + w) ws ↔ offset + w ≤ i ∧ bit ws (i - (offset + w)) = true := mem_places hw
    rw [places, List.mem_append, ih, bit_cons hw, List.mem_map]
    constructor
    · intro h
      rcases h with h | h
      · obtain ⟨j, hj, rfl⟩ := h
        rw [Nat.add_sub_cancel, if_pos (lt_of_mem_ones hj)]
        exact ⟨Nat.le_add_left .., mem_ones.1 hj⟩
      · rw [if_neg (by omega), Nat.sub_sub]
        exact ⟨by omega, h.2⟩
    · intro h
      obtain ⟨hle, h⟩ := h
      split at h
      · exact .inl ⟨i - offset, mem_ones.2 h, Nat.sub_add_cancel hle⟩
      · rw [Nat.sub_sub] at h
        exact .inr ⟨by omega, h⟩

theorem pairwise_places : ∀ (ws : List (BitVec w)) (offset : Nat), (places offset ws).Pairwise (· < ·)
  | [], _ => .nil
  | x :: ws, offset => by
    have hbelow : ∀ j ∈ (ones x).map (· + offset), j < offset + w := by
      intro j hj
      obtain ⟨k, hk, rfl⟩ := List.mem_map.1 hj
      have := lt_of_mem_ones hk
      omega
    have habove : ∀ (ws : List (BitVec w)) (offset : Nat), ∀ j ∈ places offset ws, offset ≤ j := by
      intro ws
      induction ws with
      | nil => exact fun _ j hj => absurd hj List.not_mem_nil
      | cons x ws ih =>
        intro offset j hj
        rcases List.mem_append.1 hj with hj | hj
        · obtain ⟨k, -, rfl⟩ := List.mem_map.1 hj
          exact Nat.le_add_left ..
        · exact Nat.le_trans (Nat.le_add_right ..) (ih _ j hj)
    refine List.pairwise_append.2 ⟨?_, pairwise_places ws (offset + w), fun j hj k hk => ?_⟩
    · exact (pairwise_ones x).map _ fun a b hab => Nat.add_lt_add_right hab offset
    · exact Nat.lt_of_lt_of_le (hbelow j hj) (habove ws _ k hk)

theorem length_places : ∀ (ws : List (BitVec w)) (offset : Nat), (places offset ws).length = (ws.map countOnes).sum
  | [], _ => rfl
  | x :: ws, offset => by
    rw [places, List.length_append, List.length_map, length_places ws, List.map_cons, List.sum_cons]
    rfl

/-- The words have the places of a finite set. -/
def Represents (ws : List (BitVec w)) (members : Finset Nat) : Prop := ∀ i, bit ws i = true ↔ i ∈ members

theorem Represents.mem_places {members : Finset Nat} (h : Represents ws members) (hw : 0 < w) : ∀ i, i ∈ places 0 ws ↔ i ∈ members := by
  intro i
  rw [Words.mem_places hw, Nat.sub_zero, h i]
  exact and_iff_right (Nat.zero_le i)

/-- As many ones as there are members -/
theorem Represents.sum_countOnes {members : Finset Nat} (h : Represents ws members) (hw : 0 < w) :
    (ws.map countOnes).sum = members.card := by
  have hnodup : (places 0 ws).Nodup := (pairwise_places ws 0).imp Nat.ne_of_lt
  have hmembers : (places 0 ws).toFinset = members := by
    apply Finset.ext
    intro i
    rw [List.mem_toFinset, h.mem_places hw]
  rw [← length_places ws 0, ← hmembers, List.toFinset_card_of_nodup hnodup]

end Funbun.Library.Words
