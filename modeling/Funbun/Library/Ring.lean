import Mathlib.Data.List.Rotate
import Mathlib.Data.List.Basic

/-! Lists that lie in a ring.

A buffer holds a list from a position on, straight or wrapped at the end of the buffer. What an operation does to a part of
the buffer is `overwrite` or `onRange`; what it does to the list follows from how the buffer splits. -/
namespace Funbun.Library.Ring
variable {α : Type}

/-- `items` in the place of as many elements from `start` on. -/
def overwrite (l : List α) (start : Nat) (items : List α) : List α :=
  l.take start ++ items ++ l.drop (start + items.length)

/-- A part of a list, replaced by its image. -/
def onRange (f : List α → List α) (l : List α) (start stop : Nat) : List α :=
  l.take start ++ f ((l.take stop).drop start) ++ l.drop stop

theorem overwrite_eq {a b c items : List α} (h : b.length = items.length) :
    overwrite (a ++ b ++ c) a.length items = a ++ items ++ c := by
  have hdrop : (a ++ b ++ c).drop (a.length + items.length) = c := by
    rw [← h, ← List.length_append, List.drop_left]
  rw [overwrite, hdrop, List.append_assoc a b c, List.take_left]

theorem onRange_eq {f : List α → List α} {a b c : List α} :
    onRange f (a ++ b ++ c) a.length (a.length + b.length) = a ++ f b ++ c := by
  rw [onRange, ← List.length_append, List.take_left, List.drop_left, List.drop_left, List.append_assoc a b c,
    List.take_left]

theorem length_overwrite {l items : List α} {start : Nat} (h : start + items.length ≤ l.length) :
    (overwrite l start items).length = l.length := by
  simp only [overwrite, List.length_append, List.length_take, List.length_drop]
  omega

/-- Everything moves down by one, and the last element stays. -/
def shiftDownOne (l : List α) : List α := if l.length ≤ 1 then l else l.drop 1 ++ l.drop (l.length - 1)

theorem length_shiftDownOne (l : List α) : (shiftDownOne l).length = l.length := by
  unfold shiftDownOne
  split
  · rfl
  · simp only [List.length_append, List.length_drop]
    omega

theorem shiftDownOne_cons (x : α) (xs rest : List α) :
    ∃ rest', shiftDownOne (x :: xs ++ rest) = xs ++ rest' ∧ rest'.length = rest.length + 1 := by
  unfold shiftDownOne
  split
  · rename_i hlength
    rw [List.length_append, List.length_cons] at hlength
    have hxs : xs = [] := List.length_eq_zero_iff.mp (by omega)
    subst hxs
    exact ⟨x :: rest, rfl, rfl⟩
  · rename_i hlength
    refine ⟨rest ++ (x :: xs ++ rest).drop ((x :: xs ++ rest).length - 1), ?_, ?_⟩
    · rw [List.cons_append, List.drop_succ_cons, List.drop_zero, List.append_assoc]
    · simp only [List.length_append, List.length_drop, List.length_cons] at hlength ⊢
      omega

/-- A list lies in a buffer from a position on, straight or wrapped. -/
def Holds (buf : List α) (head : Nat) (xs : List α) : Prop :=
  (∃ pre post, buf = pre ++ xs ++ post ∧ head = pre.length) ∨
    ∃ front gap back, buf = front ++ gap ++ back ∧ xs = back ++ front ∧ head = front.length + gap.length

/-- A position of a ring. A buffer that has no place has one position. -/
def Position (buf : List α) (head : Nat) : Prop := head < buf.length ∨ buf = [] ∧ head = 0

/-- The place that is free behind the list, up to the end of the buffer or up to its head. -/
def tail (buf : List α) (head count : Nat) : Nat :=
  if head + count < buf.length then head + count else head + count - buf.length

/-- How many places are free there in one piece. -/
def room (buf : List α) (head count : Nat) : Nat :=
  if head + count < buf.length then buf.length - (head + count) else buf.length - count

/-- The size of the first piece of the list, up to the end of the buffer. -/
def piece (buf : List α) (head count : Nat) : Nat := min (head + count) buf.length - head

namespace Holds
variable {buf xs ys : List α} {head : Nat}

theorem length_le (h : Holds buf head xs) : xs.length ≤ buf.length := by
  rcases h with ⟨pre, post, rfl, _⟩ | ⟨front, gap, back, rfl, rfl, _⟩
  · simp only [List.length_append]
    omega
  · simp only [List.length_append]
    omega

theorem nil (h : Position buf head) : Holds buf head [] := by
  refine Or.inl ⟨buf.take head, buf.drop head, ?_, ?_⟩
  · rw [List.append_nil, List.take_append_drop]
  · rcases h with h | ⟨rfl, rfl⟩
    · exact (List.length_take_of_le (Nat.le_of_lt h)).symm
    · rfl

/-- An element of the list is where the ring has it. -/
theorem get (h : Holds buf head xs) {i : Nat} (hi : i < xs.length) : buf[(head + i) % buf.length]? = xs[i]? := by
  rcases h with ⟨pre, post, rfl, rfl⟩ | ⟨front, gap, back, rfl, rfl, rfl⟩
  · have hlt : pre.length + i < (pre ++ xs ++ post).length := by
      simp only [List.length_append]
      omega
    rw [Nat.mod_eq_of_lt hlt, List.append_assoc, List.getElem?_append_right (Nat.le_add_right _ _), Nat.add_sub_cancel_left,
      List.getElem?_append_left hi]
  · rw [List.length_append] at hi
    by_cases hback : i < back.length
    · have hlt : front.length + gap.length + i < (front ++ gap ++ back).length := by
        simp only [List.length_append]
        omega
      rw [Nat.mod_eq_of_lt hlt, ← List.length_append, List.getElem?_append_right (Nat.le_add_right _ _),
        Nat.add_sub_cancel_left, List.getElem?_append_left hback]
    · have hlength : (front ++ gap ++ back).length = front.length + gap.length + back.length := by
        simp only [List.length_append]
      have hwrap : (front.length + gap.length + i) % (front ++ gap ++ back).length = i - back.length := by
        rw [Nat.mod_eq_sub_mod (by omega), Nat.mod_eq_of_lt (by omega)]
        omega
      rw [hwrap, List.append_assoc, List.getElem?_append_left (by omega), List.getElem?_append_right (by omega)]

/-- Elements are written behind the list. -/
theorem write (h : Holds buf head xs) (hhead : Position buf head) {items : List α}
    (hroom : items.length ≤ room buf head xs.length) :
    Holds (overwrite buf (tail buf head xs.length) items) head (xs ++ items) := by
  unfold room at hroom
  unfold tail
  rcases h with ⟨pre, post, rfl, rfl⟩ | ⟨front, gap, back, rfl, rfl, rfl⟩
  · have hlength : (pre ++ xs ++ post).length = pre.length + xs.length + post.length := by
      simp only [List.length_append]
    split at hroom
    · rename_i hlt
      rw [if_pos hlt]
      have hpost : items.length ≤ post.length := by omega
      refine Or.inl ⟨pre, post.drop items.length, ?_, rfl⟩
      have hsplit : pre ++ xs ++ post = (pre ++ xs) ++ post.take items.length ++ post.drop items.length := by
        rw [List.append_assoc (pre ++ xs), List.take_append_drop]
      rw [hsplit, ← List.length_append, overwrite_eq (List.length_take_of_le hpost), List.append_assoc pre]
    · rename_i hlt
      rw [if_neg hlt]
      have hpost : post = [] := List.length_eq_zero_iff.mp (by omega)
      subst hpost
      have hpre : items.length ≤ pre.length := by simp at hroom; omega
      refine Or.inr ⟨items, pre.drop items.length, xs, ?_, rfl, ?_⟩
      · have hsplit : pre ++ xs ++ [] = [] ++ pre.take items.length ++ (pre.drop items.length ++ xs) := by
          rw [List.nil_append, ← List.append_assoc, List.take_append_drop, List.append_nil]
        have hzero : pre.length + xs.length - (pre ++ xs ++ []).length = ([] : List α).length := by simp
        rw [hzero, hsplit, overwrite_eq (List.length_take_of_le hpre), List.nil_append, List.append_assoc]
      · rw [List.length_drop]
        omega
  · have hlength : (front ++ gap ++ back).length = front.length + gap.length + back.length := by
      simp only [List.length_append]
    have hnot : ¬ front.length + gap.length + (back ++ front).length < (front ++ gap ++ back).length := by
      rw [hlength, List.length_append]
      omega
    rw [if_neg hnot] at hroom ⊢
    rw [hlength, List.length_append] at hroom
    have hgap : items.length ≤ gap.length := by omega
    refine Or.inr ⟨front ++ items, gap.drop items.length, back, ?_, by rw [List.append_assoc], ?_⟩
    · have hsplit : front ++ gap ++ back = front ++ gap.take items.length ++ (gap.drop items.length ++ back) := by
        rw [List.append_assoc front (gap.take _), ← List.append_assoc (gap.take _), List.take_append_drop,
          List.append_assoc]
      have hstart : front.length + gap.length + (back ++ front).length - (front ++ gap ++ back).length = front.length := by
        rw [hlength, List.length_append]
        omega
      rw [hstart, hsplit, overwrite_eq (List.length_take_of_le hgap), ← List.append_assoc]
    · rw [List.length_append, List.length_drop]
      omega

/-- The first elements are taken off. -/
theorem advance (h : Holds buf head (xs ++ ys)) (hlen : buf ≠ []) : Holds buf ((head + xs.length) % buf.length) ys := by
  have hpos : 0 < buf.length := List.length_pos_iff.mpr hlen
  rcases h with ⟨pre, post, rfl, rfl⟩ | ⟨front, gap, back, rfl, hxs, rfl⟩
  · have hlength : (pre ++ (xs ++ ys) ++ post).length = pre.length + xs.length + ys.length + post.length := by
      simp only [List.length_append]
      omega
    by_cases hlt : pre.length + xs.length < (pre ++ (xs ++ ys) ++ post).length
    · rw [Nat.mod_eq_of_lt hlt]
      refine Or.inl ⟨pre ++ xs, post, ?_, List.length_append.symm⟩
      simp only [List.append_assoc]
    · have heq : pre.length + xs.length = (pre ++ (xs ++ ys) ++ post).length := by omega
      have hys : ys = [] := List.length_eq_zero_iff.mp (by omega)
      rw [heq, Nat.mod_self, hys]
      exact nil (Or.inl (by rw [hys] at hpos; exact hpos))
  · have hlength : (front ++ gap ++ back).length = front.length + gap.length + back.length := by
      simp only [List.length_append]
    rcases List.append_eq_append_iff.mp hxs with ⟨back', rfl, hys⟩ | ⟨front', rfl, rfl⟩
    · by_cases hlt : front.length + gap.length + xs.length < (front ++ gap ++ (xs ++ back')).length
      · rw [Nat.mod_eq_of_lt hlt]
        refine Or.inr ⟨front, gap ++ xs, back', ?_, hys, ?_⟩
        · simp only [List.append_assoc]
        · rw [List.length_append]
          omega
      · have heq : front.length + gap.length + xs.length = (front ++ gap ++ (xs ++ back')).length := by
          simp only [List.length_append] at hlt ⊢
          omega
        have hback : back' = [] := by
          simp only [List.length_append] at heq
          exact List.length_eq_zero_iff.mp (by omega)
        rw [heq, Nat.mod_self, hys, hback]
        refine Or.inl ⟨[], gap ++ (xs ++ []), ?_, rfl⟩
        simp only [List.nil_append, List.append_assoc]
    · have hwrap : ((front' ++ ys).length + gap.length + (back ++ front').length) % (front' ++ ys ++ gap ++ back).length =
          front'.length % (front' ++ ys ++ gap ++ back).length := by
        have hsum : (front' ++ ys).length + gap.length + (back ++ front').length =
            front'.length + (front' ++ ys ++ gap ++ back).length := by
          simp only [List.length_append]
          omega
        rw [hsum, Nat.add_mod_right]
      rw [hwrap]
      by_cases hlt : front'.length < (front' ++ ys ++ gap ++ back).length
      · rw [Nat.mod_eq_of_lt hlt]
        refine Or.inl ⟨front', gap ++ back, ?_, rfl⟩
        simp only [List.append_assoc]
      · have heq : front'.length = (front' ++ ys ++ gap ++ back).length := by
          simp only [List.length_append] at hlt ⊢
          omega
        have hys : ys = [] := by
          simp only [List.length_append] at heq
          exact List.length_eq_zero_iff.mp (by omega)
        rw [heq, Nat.mod_self, hys]
        exact nil (Or.inl (by rw [hys] at hpos; exact hpos))

/-- Places are made before the list. -/
theorem rewind (h : Holds buf head xs) (hhead : Position buf head) (hlen : buf ≠ []) {n : Nat}
    (hn : n + xs.length ≤ buf.length) :
    ∃ bs, bs.length = n ∧ Holds buf ((head + (buf.length - n)) % buf.length) (bs ++ xs) := by
  have hhead : head < buf.length := hhead.resolve_right fun hnil => hlen hnil.1
  by_cases hzero : n = 0
  · subst hzero
    refine ⟨[], rfl, ?_⟩
    rw [Nat.sub_zero, Nat.add_mod_right, Nat.mod_eq_of_lt hhead]
    exact h
  rcases h with ⟨pre, post, rfl, rfl⟩ | ⟨front, gap, back, rfl, rfl, rfl⟩
  · have hlength : (pre ++ xs ++ post).length = pre.length + xs.length + post.length := by
      simp only [List.length_append]
    by_cases hpre : n ≤ pre.length
    · have hwrap : (pre.length + ((pre ++ xs ++ post).length - n)) % (pre ++ xs ++ post).length = pre.length - n := by
        rw [Nat.mod_eq_sub_mod (by omega), Nat.mod_eq_of_lt (by omega)]
        omega
      rw [hwrap]
      refine ⟨pre.drop (pre.length - n), by rw [List.length_drop]; omega, Or.inl ⟨pre.take (pre.length - n), post, ?_, ?_⟩⟩
      · rw [← List.append_assoc, List.take_append_drop]
      · rw [List.length_take]
        omega
    · have hmod : pre.length + ((pre ++ xs ++ post).length - n) < (pre ++ xs ++ post).length := by omega
      rw [Nat.mod_eq_of_lt hmod]
      have hrest : n - pre.length ≤ post.length := by omega
      refine ⟨post.drop (post.length - (n - pre.length)) ++ pre, ?_, Or.inr ⟨pre ++ xs,
        post.take (post.length - (n - pre.length)), post.drop (post.length - (n - pre.length)), ?_, ?_, ?_⟩⟩
      · rw [List.length_append, List.length_drop]
        omega
      · rw [List.append_assoc (pre ++ xs), List.take_append_drop]
      · rw [List.append_assoc]
      · rw [hlength, List.length_append, List.length_take]
        omega
  · have hlength : (front ++ gap ++ back).length = front.length + gap.length + back.length := by
      simp only [List.length_append]
    rw [List.length_append] at hn
    have hwrap : (front.length + gap.length + ((front ++ gap ++ back).length - n)) % (front ++ gap ++ back).length =
        front.length + gap.length - n := by
      rw [Nat.mod_eq_sub_mod (by omega), Nat.mod_eq_of_lt (by omega)]
      omega
    rw [hwrap]
    refine ⟨gap.drop (gap.length - n), by rw [List.length_drop]; omega, Or.inr ⟨front, gap.take (gap.length - n),
      gap.drop (gap.length - n) ++ back, ?_, by rw [List.append_assoc], ?_⟩⟩
    · rw [← List.append_assoc, List.append_assoc front (gap.take _), List.take_append_drop]
    · rw [List.length_take]
      omega

theorem take_piece (h : Holds buf head xs) :
    (buf.take (min (head + xs.length) buf.length)).drop head = xs.take (piece buf head xs.length) := by
  unfold piece
  rcases h with ⟨pre, post, rfl, rfl⟩ | ⟨front, gap, back, rfl, rfl, rfl⟩
  · have hmin : min (pre.length + xs.length) (pre ++ xs ++ post).length = (pre ++ xs).length := by
      simp only [List.length_append]
      omega
    rw [hmin, List.take_left, List.drop_left, List.length_append, Nat.add_sub_cancel_left, List.take_length]
  · have hmin : min (front.length + gap.length + (back ++ front).length) (front ++ gap ++ back).length =
        (front ++ gap ++ back).length := by
      simp only [List.length_append]
      omega
    have hpiece : (front ++ gap ++ back).length - (front ++ gap).length = back.length := by
      simp only [List.length_append]
      omega
    rw [hmin, List.take_length, ← List.length_append, List.drop_left, hpiece, List.take_left]

/-- The first elements of the list are replaced, those behind the end of the buffer at its start. -/
theorem replace {bs items : List α} (h : Holds buf head (bs ++ xs)) (hhead : Position buf head)
    (hlength : items.length = bs.length) :
    let n := min (piece buf head (bs ++ xs).length) items.length
    Holds (overwrite (overwrite buf head (items.take n)) 0 (items.drop n)) head (items ++ xs) := by
  intro n
  rcases h with ⟨pre, post, rfl, rfl⟩ | ⟨front, gap, back, rfl, hxs, rfl⟩
  · have hn : n = items.length := by
      show min (min _ _ - _) _ = _
      simp only [List.length_append]
      omega
    rw [hn, List.take_length, List.drop_length]
    have hsplit : pre ++ (bs ++ xs) ++ post = pre ++ bs ++ (xs ++ post) := by simp only [List.append_assoc]
    rw [hsplit, overwrite_eq hlength.symm]
    refine Or.inl ⟨pre, post, ?_, rfl⟩
    simp only [overwrite, List.take_zero, List.nil_append, List.length_nil, Nat.zero_add, List.drop_zero,
      List.append_assoc]
  · have hpiece : piece (front ++ gap ++ back) (front.length + gap.length) (bs ++ xs).length = back.length := by
      rw [hxs, piece]
      simp only [List.length_append]
      omega
    have hn : n = min back.length items.length := by
      show min (piece _ _ _) _ = _
      rw [hpiece]
    rcases List.append_eq_append_iff.mp hxs with ⟨back', rfl, hys⟩ | ⟨front', rfl, rfl⟩
    · have hall : n = items.length := by
        rw [hn, List.length_append]
        omega
      rw [hall, List.take_length, List.drop_length]
      have hsplit : front ++ gap ++ (bs ++ back') = (front ++ gap) ++ bs ++ back' := by
        simp only [List.append_assoc]
      rw [hsplit, ← List.length_append, overwrite_eq hlength.symm]
      refine Or.inr ⟨front, gap, items ++ back', ?_, by rw [hys, List.append_assoc], List.length_append⟩
      simp only [overwrite, List.take_zero, List.nil_append, List.length_nil, Nat.zero_add, List.drop_zero,
        List.append_assoc]
    · rw [List.length_append] at hlength
      have hback : n = back.length := by omega
      rw [hback]
      have hsplit : front' ++ xs ++ gap ++ back = (front' ++ xs ++ gap) ++ back ++ [] := by
        simp only [List.append_nil]
      have hhead' : (front' ++ xs).length + gap.length = (front' ++ xs ++ gap).length := by
        simp only [List.length_append]
      have htake : back.length = (items.take back.length).length := by
        rw [List.length_take]
        omega
      rw [hsplit, hhead', overwrite_eq htake]
      have hfront : (front' ++ xs ++ gap) ++ items.take back.length ++ [] =
          [] ++ front' ++ (xs ++ gap ++ items.take back.length) := by
        simp only [List.append_assoc, List.append_nil, List.nil_append]
      have hzero : (0 : Nat) = ([] : List α).length := rfl
      rw [hfront, hzero, overwrite_eq (by rw [List.length_drop]; omega)]
      refine Or.inr ⟨items.drop back.length ++ xs, gap, items.take back.length, ?_, ?_, ?_⟩
      · simp only [List.append_assoc, List.nil_append]
      · rw [← List.append_assoc, List.take_append_drop]
      · simp only [List.length_append, List.length_drop]
        omega

/-- A list that does not wrap is moved to the start. -/
theorem moveDown (h : Holds buf head xs) (hstraight : head + xs.length ≤ buf.length) :
    Holds (overwrite buf 0 ((buf.drop head).take xs.length)) 0 xs := by
  have hstart : ∀ pre post : List α, Holds (overwrite (pre ++ xs ++ post) 0 xs) 0 xs := by
    intro pre post
    exact Or.inl ⟨[], (pre ++ xs ++ post).drop (0 + xs.length), rfl, rfl⟩
  rcases h with ⟨pre, post, rfl, rfl⟩ | ⟨front, gap, back, rfl, rfl, rfl⟩
  · rw [List.append_assoc, List.drop_left, List.take_left, ← List.append_assoc]
    exact hstart pre post
  · have hfront : front = [] := by
      simp only [List.length_append] at hstraight
      exact List.length_eq_zero_iff.mp (by omega)
    subst hfront
    have hdrop : (([] : List α) ++ gap ++ back).drop (([] : List α).length + gap.length) = back := by
      rw [List.nil_append, List.length_nil, Nat.zero_add, List.drop_left]
    rw [hdrop, List.append_nil, List.take_length]
    have hback := hstart gap []
    rw [List.append_nil, List.append_nil] at hback
    exact hback

/-- The buffer is turned until the list starts it. -/
theorem rotate (h : Holds buf head xs) : Holds (buf.rotate head) 0 xs := by
  rcases h with ⟨pre, post, rfl, rfl⟩ | ⟨front, gap, back, rfl, rfl, rfl⟩
  · rw [List.append_assoc, List.rotate_append_length_eq]
    exact Or.inl ⟨[], post ++ pre, by rw [List.nil_append, List.append_assoc], rfl⟩
  · rw [← List.length_append, List.rotate_append_length_eq]
    exact Or.inl ⟨[], gap, by simp only [List.nil_append, List.append_assoc], rfl⟩

/-- A list that starts its buffer is held by any buffer that starts as this one. -/
theorem of_prefix (h : Holds buf 0 xs) {buf' : List α} (htake : buf'.take xs.length = buf.take xs.length)
    (hle : xs.length ≤ buf'.length) : Holds buf' 0 xs := by
  have hstart : buf.take xs.length = xs := by
    rcases h with ⟨pre, post, rfl, hpre⟩ | ⟨front, gap, back, rfl, rfl, hhead⟩
    · rw [List.length_eq_zero_iff.mp hpre.symm, List.nil_append, List.take_left]
    · have hfront : front = [] := List.length_eq_zero_iff.mp (by omega)
      have hgap : gap = [] := List.length_eq_zero_iff.mp (by omega)
      simp [hfront, hgap]
  refine Or.inl ⟨[], buf'.drop xs.length, ?_, rfl⟩
  rw [List.nil_append]
  conv => rhs; lhs; rw [← hstart, ← htake]
  exact (List.take_append_drop _ _).symm

variable {as bs : List α} {x : α}

/-- An element is taken out of a list that does not wrap. -/
theorem remove_straight (h : Holds buf head (as ++ x :: bs)) (hstraight : head + (as ++ x :: bs).length ≤ buf.length) :
    Holds (onRange shiftDownOne buf (head + as.length) buf.length) head (as ++ bs) := by
  obtain ⟨pre, post, rfl, rfl⟩ : ∃ pre post, buf = pre ++ (as ++ x :: bs) ++ post ∧ head = pre.length := by
    rcases h with ⟨pre, post, hbuf, hhead⟩ | ⟨front, gap, back, hbuf, hxs, hhead⟩
    · exact ⟨pre, post, hbuf, hhead⟩
    · have hfront : front = [] := by
        rw [hxs, hbuf] at hstraight
        simp only [List.length_append] at hstraight
        exact List.length_eq_zero_iff.mp (by omega)
      refine ⟨gap, [], ?_, ?_⟩
      · rw [hbuf, hxs, hfront]
        simp
      · rw [hhead, hfront]
        simp
  obtain ⟨rest, hshift, _⟩ := shiftDownOne_cons x bs post
  have hsplit : pre ++ (as ++ x :: bs) ++ post = (pre ++ as) ++ (x :: bs ++ post) ++ [] := by
    simp only [List.append_assoc, List.append_nil]
  have hstop : (pre ++ as ++ (x :: bs ++ post) ++ []).length = (pre ++ as).length + (x :: bs ++ post).length := by
    simp only [List.length_append, List.length_nil, Nat.add_zero]
  rw [hsplit, hstop, ← List.length_append, onRange_eq, hshift]
  refine Or.inl ⟨pre, rest, ?_, rfl⟩
  simp only [List.append_assoc, List.append_nil]

/-- An element is taken out behind the end of the buffer. -/
theorem remove_front {back front gap : List α} (hbuf : buf = front ++ gap ++ back)
    (hhead : head = front.length + gap.length) (hfront : front = as ++ x :: bs) :
    Holds (onRange shiftDownOne buf as.length front.length) head (back ++ as ++ bs) := by
  subst hbuf hhead hfront
  obtain ⟨rest, hshift, hrest⟩ := shiftDownOne_cons x bs []
  have hsplit : as ++ x :: bs ++ gap ++ back = as ++ (x :: bs) ++ (gap ++ back) := by
    simp only [List.append_assoc]
  rw [List.append_nil] at hshift
  rw [hsplit, List.length_append, onRange_eq, hshift]
  refine Or.inr ⟨as ++ bs, rest ++ gap, back, ?_, ?_, ?_⟩
  · simp only [List.append_assoc]
  · simp only [List.append_assoc]
  · simp only [List.length_append, List.length_cons, List.length_nil] at hrest ⊢
    omega

theorem remove_back {x y : α} {back front gap : List α} (hbuf : buf = y :: front ++ gap ++ back)
    (hhead : head = (y :: front).length + gap.length) (hback : back = as ++ x :: bs) :
    Holds (onRange shiftDownOne
      (overwrite (onRange shiftDownOne buf (head + as.length) buf.length) (buf.length - 1) [y]) 0 (y :: front).length)
      head (as ++ bs ++ y :: front) := by
  subst hbuf hhead hback
  obtain ⟨rest, hshift, hrest⟩ := shiftDownOne_cons x bs []
  obtain ⟨rest', hshift', hrest'⟩ := shiftDownOne_cons y front []
  rw [List.append_nil] at hshift hshift'
  have hsplit : y :: front ++ gap ++ (as ++ x :: bs) = (y :: front ++ gap ++ as) ++ (x :: bs) ++ [] := by
    simp only [List.append_assoc, List.append_nil]
  have hstart : (y :: front).length + gap.length + as.length = (y :: front ++ gap ++ as).length := by
    simp only [List.length_append]
  have hstop : (y :: front ++ gap ++ as ++ (x :: bs) ++ []).length =
      (y :: front ++ gap ++ as).length + (x :: bs).length := by
    simp only [List.length_append, List.length_nil, Nat.add_zero]
  rw [hsplit, hstart, hstop, onRange_eq, hshift]
  have hlast : (y :: front ++ gap ++ as).length + (x :: bs).length - 1 = (y :: front ++ gap ++ as ++ bs).length := by
    simp only [List.length_append, List.length_cons]
    omega
  have hrest : rest.length = [y].length := hrest
  have hmiddle : y :: front ++ gap ++ as ++ (bs ++ rest) ++ [] = (y :: front ++ gap ++ as ++ bs) ++ rest ++ [] := by
    simp only [List.append_assoc]
  rw [hlast, hmiddle, overwrite_eq hrest]
  have hfront : y :: front ++ gap ++ as ++ bs ++ [y] ++ [] = [] ++ (y :: front) ++ (gap ++ as ++ bs ++ [y]) := by
    simp only [List.append_assoc, List.append_nil, List.nil_append]
  have hrange := @onRange_eq _ shiftDownOne [] (y :: front) (gap ++ as ++ bs ++ [y])
  rw [List.length_nil, Nat.zero_add] at hrange
  rw [hfront, hrange, hshift']
  refine Or.inr ⟨front, rest' ++ gap, as ++ bs ++ [y], ?_, ?_, ?_⟩
  · simp only [List.append_assoc, List.nil_append]
  · simp only [List.append_assoc, List.cons_append, List.nil_append]
  · simp only [List.length_append, List.length_cons, List.length_nil] at hrest' ⊢
    omega

end Holds
end Funbun.Library.Ring
