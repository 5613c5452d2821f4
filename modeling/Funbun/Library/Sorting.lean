import Mathlib.Data.List.Induction
import Mathlib.Data.List.Sort

/-! Putting a collection in order.

An order that is that of ranks sorts by rank. Where ranks tell the members apart, what is sorted does not depend on the
order it came in. Places that are noted while a list grows can be changed later, and a table can be kept of where a member is now. -/
namespace Funbun.Library.Sorting

section Rank
variable {α β : Type} [LinearOrder β] (rank : α → β) (r : α → α → Prop) [DecidableRel r] {as as' : List α}

/-- The relation is that of ranks on the members. -/
def Ranks (as : List α) : Prop := ∀ a ∈ as, ∀ b ∈ as, r a b ↔ rank a ≤ rank b

variable {rank r}

theorem Ranks.pairwise (h : Ranks rank r as) : (as.insertionSort r).Pairwise fun a b => rank a ≤ rank b := by
  have hmap : (as.insertionSort r).map rank = (as.map rank).insertionSort (· ≤ ·) := List.map_insertionSort _ _ rank as h
  have hsorted := List.pairwise_insertionSort (· ≤ ·) (as.map rank)
  rw [← hmap, List.pairwise_map] at hsorted
  exact hsorted

/-- The same members are sorted the same. -/
theorem Ranks.eq_of_perm {r' : α → α → Prop} [DecidableRel r'] (h : Ranks rank r as) (h' : Ranks rank r' as')
    (hinj : ∀ a ∈ as, ∀ b ∈ as, rank a = rank b → a = b) (hperm : as.Perm as') :
    as.insertionSort r = as'.insertionSort r' := by
  have hsorted : (as.insertionSort r).Perm (as'.insertionSort r') :=
    (List.perm_insertionSort r as).trans (hperm.trans (List.perm_insertionSort r' as').symm)
  refine List.Perm.eq_of_pairwise ?_ h.pairwise h'.pairwise hsorted
  intro a b ha hb hab hba
  have ha := (List.perm_insertionSort r as).mem_iff.mp ha
  have hb := hperm.mem_iff.mpr ((List.perm_insertionSort r' as').mem_iff.mp hb)
  exact hinj a ha b hb (le_antisymm hab hba)

/-- A member that is not above any other comes first. -/
theorem Ranks.head (h : Ranks rank r as) (hne : as ≠ []) :
    ∃ a rest, as.insertionSort r = a :: rest ∧ a ∈ as ∧ ∀ b ∈ as, rank a ≤ rank b := by
  have hperm := List.perm_insertionSort r as
  have hpairwise := h.pairwise
  cases hsort : as.insertionSort r with
  | nil =>
    rw [hsort] at hperm
    exact absurd (List.nil_perm.mp hperm) hne
  | cons a rest =>
    rw [hsort] at hperm hpairwise
    refine ⟨a, rest, rfl, hperm.mem_iff.mp List.mem_cons_self, fun b hb => ?_⟩
    rcases List.mem_cons.mp (hperm.mem_iff.mpr hb) with rfl | hrest
    · exact le_rfl
    · exact List.rel_of_pairwise_cons hpairwise hrest

end Rank

/-! ### Places -/

section Places
variable {α : Type} (p : α → Bool)

/-- The places of the members with a property -/
def places (as : List α) : List Nat := (as.zipIdx.filter fun x => p x.1).map Prod.snd

theorem places_concat (as : List α) (a : α) :
    places p (as ++ [a]) = if p a then places p as ++ [as.length] else places p as := by
  rw [places, List.zipIdx_append, List.filter_append, List.map_append, ← places]
  by_cases ha : p a = true <;> simp [ha]

theorem lt_of_mem_places {as : List α} {i : Nat} (h : i ∈ places p as) : i < as.length := by
  obtain ⟨⟨a, i⟩, hmem, rfl⟩ := List.mem_map.mp h
  have := List.mem_zipIdx_iff_getElem?.mp (List.mem_filter.mp hmem).1
  exact (List.getElem?_eq_some_iff.mp this).choose

variable {p}

theorem modify_append_left (f : α → α) {as : List α} {i : Nat} (h : i < as.length) (bs : List α) :
    (as ++ bs).modify i f = as.modify i f ++ bs := by
  induction as generalizing i with
  | nil => exact absurd h (Nat.not_lt_zero i)
  | cons a as ih =>
    cases i with
    | zero => rfl
    | succ i => exact congrArg (a :: ·) (ih (Nat.lt_of_succ_lt_succ h))

theorem modify_concat_length (f : α → α) (as : List α) (a : α) : (as ++ [a]).modify as.length f = as ++ [f a] := by
  induction as with
  | nil => rfl
  | cons b as ih => exact congrArg (b :: ·) ih

/-- Changes before the end -/
theorem foldl_modify_append (f : α → α) (is : List Nat) {as : List α} (h : ∀ i ∈ is, i < as.length) (bs : List α) :
    is.foldl (fun as i => as.modify i f) (as ++ bs) = is.foldl (fun as i => as.modify i f) as ++ bs := by
  induction is generalizing as with
  | nil => rfl
  | cons i is ih =>
    have hi := h i List.mem_cons_self
    rw [List.foldl_cons, List.foldl_cons, modify_append_left f hi]
    refine ih fun j hj => ?_
    rw [List.length_modify]
    exact h j (List.mem_cons_of_mem i hj)

/-- Changing the noted places is changing the members with the property. -/
theorem foldl_modify_places (f : α → α) (as : List α) :
    (places p as).foldl (fun as i => as.modify i f) as = as.map fun a => if p a then f a else a := by
  induction as using List.reverseRecOn with
  | nil => rfl
  | append_singleton as a ih =>
    have hbefore := foldl_modify_append f (places p as) (fun i hi => lt_of_mem_places p hi) [a]
    rw [places_concat, List.map_append]
    by_cases ha : p a = true
    · have hlast := modify_concat_length f (as.map fun a => if p a then f a else a) a
      rw [List.length_map] at hlast
      rw [if_pos ha, List.foldl_append, hbefore, ih, List.foldl_cons, List.foldl_nil, hlast, List.map_singleton, if_pos ha]
    · rw [if_neg ha, hbefore, ih]
      simp [ha]

end Places

end Funbun.Library.Sorting
