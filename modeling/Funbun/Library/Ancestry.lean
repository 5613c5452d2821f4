import Mathlib.Logic.Relation
import Mathlib.Order.RelClasses

/-! Looking a name up along the ancestors of a node.

A forest is given by its `parent` links, what a node itself answers by `look`. A `Lookup` walks from a node towards the root,
no higher than `top`, and ends at the first node that answers. -/
namespace Funbun.Library.Ancestry

variable {ι α : Type*}

/-- `j` is `i` or an ancestor of `i`. -/
abbrev Ancestor (parent : ι → Option ι) : ι → ι → Prop :=
  Relation.ReflTransGen fun i j => parent i = some j

/-- The walk from the first node ends at the second, with the answer found there. -/
inductive Lookup (parent : ι → Option ι) (top : Option ι) (look : ι → Option α) :
    ι → ι → Option α → Prop
  | found {i : ι} {a : α} (h : look i = some a) : Lookup parent top look i i (some a)
  | missing {i : ι} (h : look i = none) (stop : parent i = none ∨ top = some i) :
      Lookup parent top look i i none
  | up {i j k : ι} {r : Option α} (h : look i = none) (go : top ≠ some i) (link : parent i = some j)
      (rest : Lookup parent top look j k r) : Lookup parent top look i k r

section
variable {parent : ι → Option ι} {top : Option ι} {look : ι → Option α} {i j k : ι} {r : Option α}

/-- Links that go down in an order leave every walk finite. -/
theorem exists_lookup [Preorder ι] [WellFoundedLT ι] (lt : ∀ i j, parent i = some j → j < i)
    (top : Option ι) (look : ι → Option α) (i : ι) : ∃ k r, Lookup parent top look i k r := by
  induction i using WellFoundedLT.induction with
  | _ i ih =>
    cases hlook : look i with
    | some a => exact ⟨i, some a, .found hlook⟩
    | none =>
      by_cases htop : top = some i
      · exact ⟨i, none, .missing hlook (.inr htop)⟩
      cases hparent : parent i with
      | none => exact ⟨i, none, .missing hlook (.inl hparent)⟩
      | some j =>
        obtain ⟨k, r, rest⟩ := ih j (lt i j hparent)
        exact ⟨k, r, .up hlook htop hparent rest⟩

/-- Ancestors come earlier. -/
theorem ancestor_le [Preorder ι] (lt : ∀ i j, parent i = some j → j < i) (h : Ancestor parent i j) :
    j ≤ i := by
  induction h with
  | refl => exact le_rfl
  | tail _ link ih => exact (lt _ _ link).le.trans ih

/-- Links that agree on the ancestors of a node give it the same ancestors. -/
theorem ancestor_congr {parent' : ι → Option ι} (hlink : ∀ x, Ancestor parent i x → parent x = parent' x)
    (h : Ancestor parent i j) : Ancestor parent' i j := by
  induction h with
  | refl => exact .refl
  | tail hx link ih => exact ih.tail (hlink _ hx ▸ link)

theorem ancestor_congr_of {parent' : ι → Option ι} (hlink : ∀ x, Ancestor parent i x → parent' x = parent x)
    (h : Ancestor parent' i j) : Ancestor parent i j := by
  induction h with
  | refl => exact .refl
  | tail _ link ih => exact ih.tail (hlink _ ih ▸ link)

namespace Lookup

theorem ancestor (h : Lookup parent top look i k r) : Ancestor parent i k := by
  induction h with
  | found _ => exact .refl
  | missing _ _ => exact .refl
  | up _ _ link _ ih => exact .head link ih

theorem answer (h : Lookup parent top look i k r) : look k = r := by
  induction h with
  | found h => exact h
  | missing h _ => exact h
  | up _ _ _ _ ih => exact ih

/-- There is only one walk from a node. -/
theorem unique {k' : ι} {r' : Option α} (h : Lookup parent top look i k r)
    (h' : Lookup parent top look i k' r') : k = k' ∧ r = r' := by
  induction h with
  | found ha =>
    cases h' with
    | found hb => exact ⟨rfl, ha.symm.trans hb⟩
    | missing hb _ => rw [ha] at hb; cases hb
    | up hb _ _ _ => rw [ha] at hb; cases hb
  | missing ha stop =>
    cases h' with
    | found hb => rw [ha] at hb; cases hb
    | missing _ _ => exact ⟨rfl, rfl⟩
    | up _ go link _ =>
      rcases stop with stop | stop
      · rw [stop] at link; cases link
      · exact absurd stop go
  | up ha go link _ ih =>
    cases h' with
    | found hb => rw [ha] at hb; cases hb
    | missing _ stop =>
      rcases stop with stop | stop
      · rw [stop] at link; cases link
      · exact absurd stop go
    | up _ _ link' rest =>
      rw [link] at link'
      cases link'
      exact ih rest

/-- A walk without an answer ends where it must. -/
theorem stop (h : Lookup parent top look i k none) : parent k = none ∨ top = some k := by
  generalize hr : (none : Option α) = r at h
  induction h with
  | found _ => cases hr
  | missing _ stop => exact stop
  | up _ _ _ _ ih => exact ih hr

/-- Below the node a walk ends at, no node answers. -/
theorem none_below [PartialOrder ι] (lt : ∀ i j, parent i = some j → j < i)
    (h : Lookup parent top look i k r) (hij : Ancestor parent i j) (hjk : Ancestor parent j k)
    (hne : j ≠ k) : look j = none := by
  induction h with
  | found _ => exact absurd (le_antisymm (ancestor_le lt hij) (ancestor_le lt hjk)) hne
  | missing _ _ => exact absurd (le_antisymm (ancestor_le lt hij) (ancestor_le lt hjk)) hne
  | up h _ link _ ih =>
    rcases Relation.ReflTransGen.cases_head hij with rfl | ⟨x, hx, hxj⟩
    · exact h
    · rw [link] at hx
      cases hx
      exact ih hxj hjk hne

end Lookup

end
end Funbun.Library.Ancestry
