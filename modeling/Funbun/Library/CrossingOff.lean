import Mathlib.Data.List.Forall2
import Mathlib.Data.List.Induction

/-! Marks that are crossed off one by one.

The marks have an order. Item by item the next mark is crossed off if it fits the item: at most one for each item. This
crosses off as many marks as can be given to items of their own in order. -/
namespace Funbun.Library.CrossingOff

variable {α β : Type} (fits : α → β → Bool) (marks : List α)

/-- One mark is crossed off if the next one fits. -/
def step (n : Nat) (item : β) : Nat := if (marks[n]?).any (fits · item) then n + 1 else n

/-- How many marks are crossed off -/
def crossed (items : List β) : Nat := items.foldl (step fits marks) 0

/-- The first `k` marks can be given to items of their own, in order, each fitting its item. -/
structure Given (items : List β) (k : Nat) : Prop where
  enough : k ≤ marks.length
  chosen : ∃ chosen, chosen.Sublist items ∧ List.Forall₂ (fun mark item => fits mark item = true) (marks.take k) chosen

variable {fits marks}

theorem crossed_concat (items : List β) (item : β) :
    crossed fits marks (items ++ [item]) = step fits marks (crossed fits marks items) item := by
  unfold crossed
  rw [List.foldl_append]
  rfl

theorem step_le (n : Nat) (item : β) : n ≤ step fits marks n item ∧ step fits marks n item ≤ n + 1 := by
  unfold step
  split <;> omega

variable {k : Nat} {items : List β}

theorem take_succ {mark : α} (h : marks[k]? = some mark) : marks.take (k + 1) = marks.take k ++ [mark] := by
  rw [List.take_add_one, h]
  rfl

theorem given_concat (h : Given fits marks items k) (item : β) :
    Given fits marks (items ++ [item]) k := by
  obtain ⟨chosen, hsub, hfits⟩ := h.chosen
  exact ⟨h.enough, chosen, hsub.trans (List.sublist_append_left _ _), hfits⟩

theorem given_succ {mark : α} (h : Given fits marks items k) (hmark : marks[k]? = some mark)
    {item : β} (hfits : fits mark item = true) : Given fits marks (items ++ [item]) (k + 1) := by
  obtain ⟨chosen, hsub, hchosen⟩ := h.chosen
  obtain ⟨hlt, -⟩ := List.getElem?_eq_some_iff.1 hmark
  refine ⟨hlt, chosen ++ [item], hsub.append_right _, ?_⟩
  rw [take_succ hmark]
  exact List.rel_append hchosen (.cons hfits .nil)

/-- What is crossed off can be given to items. -/
theorem given_crossed (items : List β) : Given fits marks items (crossed fits marks items) := by
  induction items using List.reverseRecOn with
  | nil => exact ⟨Nat.zero_le _, [], List.Sublist.refl _, .nil⟩
  | append_singleton items item ih =>
    rw [crossed_concat]
    unfold step
    cases hmark : marks[crossed fits marks items]? with
    | none => exact given_concat ih item
    | some mark =>
      rw [Option.any_some]
      split
      · rename_i hfits
        exact given_succ ih hmark hfits
      · exact given_concat ih item

/-- The last of some marks that are given goes to the last item, or the last item is left. -/
theorem given_of_concat {item : β} (h : Given fits marks (items ++ [item]) (k + 1)) :
    Given fits marks items (k + 1) ∨
      (Given fits marks items k ∧ ∃ mark, marks[k]? = some mark ∧ fits mark item = true) := by
  obtain ⟨chosen, hsub, hfits⟩ := h.chosen
  have hlt : k < marks.length := h.enough
  have hmark : marks[k]? = some marks[k] := List.getElem?_eq_getElem hlt
  have hlength := hfits.length_eq
  rw [List.length_take, Nat.min_eq_left hlt] at hlength
  rcases List.eq_nil_or_concat chosen with rfl | ⟨front, x, rfl⟩
  · exact absurd hlength (Nat.succ_ne_zero k)
  rw [List.concat_eq_append] at hsub hfits hlength
  have hfront : front.length = k := by
    rw [List.length_append, List.length_singleton] at hlength
    omega
  have htake : (marks.take k).length = front.length := by
    rw [List.length_take, Nat.min_eq_left (Nat.le_of_lt hlt), hfront]
  have hinit := List.forall₂_take_append _ _ _ hfits
  have hlast := List.forall₂_drop_append _ _ _ hfits
  rw [take_succ hmark, ← htake, List.take_left] at hinit
  rw [take_succ hmark, ← htake, List.drop_left, List.forall₂_cons] at hlast
  obtain ⟨a, b, hab, ha, hb⟩ := List.sublist_append_iff.1 hsub
  rcases List.eq_nil_or_concat b with rfl | ⟨b', y, rfl⟩
  · rw [List.append_nil] at hab
    exact .inl ⟨h.enough, _, hab ▸ ha, hfits⟩
  · rw [List.concat_eq_append] at hab hb
    have hlen := hb.length_le
    rw [List.length_append, List.length_singleton, List.length_singleton] at hlen
    obtain rfl : b' = [] := List.eq_nil_of_length_eq_zero (by omega)
    rw [List.nil_append] at hab hb
    obtain ⟨rfl, hxy⟩ := List.append_inj' hab rfl
    obtain rfl : x = y := List.singleton_inj.1 hxy
    obtain rfl : x = item := List.mem_singleton.1 (hb.subset (List.mem_singleton_self x))
    exact .inr ⟨⟨Nat.le_of_succ_le h.enough, front, ha, hinit⟩, marks[k], hmark, hlast.1⟩

/-- No more marks can be given to items than are crossed off. -/
theorem le_crossed (h : Given fits marks items k) : k ≤ crossed fits marks items := by
  induction items using List.reverseRecOn generalizing k with
  | nil =>
    obtain ⟨chosen, hsub, hfits⟩ := h.chosen
    rw [List.sublist_nil.1 hsub, List.forall₂_nil_right_iff, List.take_eq_nil_iff] at hfits
    have := h.enough
    rcases hfits with rfl | rfl
    · exact Nat.zero_le _
    · exact this
  | append_singleton items item ih =>
    rw [crossed_concat]
    have hle : crossed fits marks items ≤ step fits marks (crossed fits marks items) item := (step_le _ item).1
    cases k with
    | zero => exact Nat.zero_le _
    | succ k =>
      rcases given_of_concat h with hgiven | ⟨hgiven, mark, hmark, hfits⟩
      · exact Nat.le_trans (ih hgiven) hle
      · have hk := ih hgiven
        rcases Nat.lt_or_eq_of_le hk with hlt | rfl
        · exact Nat.le_trans hlt hle
        · have hany : marks[crossed fits marks items]?.any (fits · item) = true := by
            rw [hmark, Option.any_some, hfits]
          unfold step
          exact Nat.le_of_eq (if_pos hany).symm

/-- The number of marks that are crossed off is the greatest that can be given to items. -/
theorem eq_crossed_iff :
    k = crossed fits marks items ↔ Given fits marks items k ∧ ∀ k', Given fits marks items k' → k' ≤ k := by
  constructor
  · intro h
    subst h
    exact ⟨given_crossed items, fun _ => le_crossed⟩
  · intro h
    exact Nat.le_antisymm (le_crossed h.1) (h.2 _ (given_crossed items))

end Funbun.Library.CrossingOff
