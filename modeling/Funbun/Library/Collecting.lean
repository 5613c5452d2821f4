import Mathlib.Algebra.BigOperators.Group.Finset.Basic
import Mathlib.Data.List.Basic
import Mathlib.Logic.Relation

/-! What a walk collects, and in which order.

A walk collects something at every node that it meets for the first time: in the end a sum over these nodes. A list to which
every node is added when the call for it returns has a node behind those that it leads to, unless they lead back. -/
namespace Funbun.Library.Collecting

section
variable {α M : Type} [DecidableEq α] [AddCommMonoid M]

/-- Besides `own`, something is collected for each node that is new. -/
structure Collects (share : α → M) (own : M) (before after : Finset α) (total total' : M) : Prop where
  kept : before ⊆ after
  total_eq : total' = total + own + ∑ a ∈ after \ before, share a

variable {share : α → M} {own own' : M} {before middle after : Finset α} {total total' total'' : M}

namespace Collects

theorem emit (own : M) : Collects share own before before total (total + own) where
  kept := subset_rfl
  total_eq := by rw [Finset.sdiff_self, Finset.sum_empty, add_zero]

theorem nothing : Collects share 0 before before total total where
  kept := subset_rfl
  total_eq := by rw [Finset.sdiff_self, Finset.sum_empty, add_zero, add_zero]

theorem append (h : Collects share own before middle total total')
    (h' : Collects share own' middle after total' total'') :
    Collects share (own + own') before after total total'' where
  kept := h.kept.trans h'.kept
  total_eq := by
    have hnew : after \ before = middle \ before ∪ after \ middle := by
      ext a
      simp only [Finset.mem_sdiff, Finset.mem_union]
      constructor
      · rintro ⟨hafter, hbefore⟩
        by_cases hmiddle : a ∈ middle
        · exact .inl ⟨hmiddle, hbefore⟩
        · exact .inr ⟨hafter, hmiddle⟩
      · rintro (⟨hmiddle, hbefore⟩ | ⟨hafter, hmiddle⟩)
        · exact ⟨h'.kept hmiddle, hbefore⟩
        · exact ⟨hafter, fun hbefore => hmiddle (h.kept hbefore)⟩
    have hdisjoint : Disjoint (middle \ before) (after \ middle) :=
      Finset.disjoint_left.mpr fun a ha ha' => (Finset.mem_sdiff.mp ha').2 (Finset.mem_sdiff.mp ha).1
    rw [h'.total_eq, h.total_eq, hnew, Finset.sum_union hdisjoint]
    ac_rfl

/-- A node that is new: the call collects all of its share. -/
theorem explore {a : α} (ha : a ∉ before) (h : Collects share (share a) (insert a before) after total total') :
    Collects share 0 before after total total' where
  kept := (Finset.subset_insert a before).trans h.kept
  total_eq := by
    have hnew : after \ before = insert a (after \ insert a before) := by
      ext b
      simp only [Finset.mem_sdiff, Finset.mem_insert, not_or]
      constructor
      · rintro ⟨hafter, hbefore⟩
        by_cases hba : b = a
        · exact .inl hba
        · exact .inr ⟨hafter, hba, hbefore⟩
      · rintro (rfl | ⟨hafter, -, hbefore⟩)
        · exact ⟨h.kept (Finset.mem_insert_self b before), ha⟩
        · exact ⟨hafter, hbefore⟩
    have hnot : a ∉ after \ insert a before := fun hmem =>
      (Finset.mem_sdiff.mp hmem).2 (Finset.mem_insert_self a before)
    rw [h.total_eq, hnew, Finset.sum_insert hnot, add_zero, add_assoc]

theorem congr (h : Collects share own before after total total') (hown : own = own') :
    Collects share own' before after total total' := hown ▸ h

end Collects

end

/-! ### Order -/

section
variable {α : Type}

/-- In the middle of a walk: `path` are the nodes whose calls have not returned. Nodes without `keep` are not listed. -/
structure Ordered (succ : α → Set α) (keep : α → Prop) (path visited : Set α) (order : List α) : Prop where
  listed : ∀ a ∈ visited, a ∉ path → keep a → a ∈ order
  ordered : ∀ a ∈ order, ∀ b ∈ succ a, keep b →
    [b, a].Sublist order ∨ Relation.ReflTransGen (fun x y => y ∈ succ x) b a

variable {succ : α → Set α} {keep : α → Prop} {path visited : Set α} {order : List α} {a : α}

namespace Ordered

theorem start : Ordered succ keep ∅ ∅ [] where
  listed _ ha := nomatch ha
  ordered _ ha := nomatch ha

/-- A call for a new node starts. -/
theorem enter (h : Ordered succ keep path visited order) (a : α) :
    Ordered succ keep (insert a path) (insert a visited) order where
  listed b hb hpath hkeep := by
    rw [Set.mem_insert_iff, not_or] at hpath
    exact h.listed b (hb.resolve_left hpath.1) hpath.2 hkeep
  ordered := h.ordered

/-- A call returns, and its node is listed. -/
theorem leave (h : Ordered succ keep (insert a path) visited order) (hsucc : succ a ⊆ visited)
    (hpath : ∀ b ∈ path, Relation.ReflTransGen (fun x y => y ∈ succ x) b a) (hkeep : keep a) :
    Ordered succ keep path visited (order ++ [a]) where
  listed b hb hopen hkeep := by
    by_cases hba : b = a
    · exact List.mem_append_right _ (List.mem_singleton.mpr hba)
    · exact List.mem_append_left _ (h.listed b hb (fun hmem => hmem.elim hba hopen) hkeep)
  ordered b hb c hc hkept := by
    rcases List.mem_append.mp hb with hb | hb
    · exact (h.ordered b hb c hc hkept).imp_left fun hsub => hsub.trans (List.sublist_append_left ..)
    · obtain rfl := List.mem_singleton.mp hb
      by_cases hcpath : c ∈ insert b path
      · right
        rcases hcpath with rfl | hcpath
        · exact .refl
        · exact hpath c hcpath
      · left
        have hlisted := h.listed c (hsucc hc) hcpath hkept
        exact (List.singleton_sublist.mpr hlisted).append (List.Sublist.refl [b])

/-- A call returns for a node that is not listed. -/
theorem leave_unlisted (h : Ordered succ keep (insert a path) visited order) (hkeep : ¬ keep a) :
    Ordered succ keep path visited order where
  listed b hb hopen hkept := by
    refine h.listed b hb (fun hmem => hmem.elim (fun hba => hkeep (hba ▸ hkept)) hopen) hkept
  ordered := h.ordered

end Ordered

end

end Funbun.Library.Collecting
