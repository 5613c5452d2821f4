import Mathlib.Data.List.Perm.Basic

/-! Lists that go down in a comparison, and comparisons by keys of several kinds. -/
namespace Funbun.Library.Descending
open Std

variable {α β : Type}

/-! ### Keys of two kinds -/

/-- Keys of the first kind come first. -/
def compareSum (cmp₁ : α → α → Ordering) (cmp₂ : β → β → Ordering) : α ⊕ β → α ⊕ β → Ordering
  | .inl a, .inl b => cmp₁ a b
  | .inl _, .inr _ => .lt
  | .inr _, .inl _ => .gt
  | .inr a, .inr b => cmp₂ a b

theorem oriented_compareSum (cmp₁ : α → α → Ordering) (cmp₂ : β → β → Ordering) [OrientedCmp cmp₁] [OrientedCmp cmp₂] :
    OrientedCmp (compareSum cmp₁ cmp₂) where
  eq_swap {a b} := by
    match a, b with
    | .inl a, .inl b => exact (OrientedCmp.eq_swap : cmp₁ a b = (cmp₁ b a).swap)
    | .inl _, .inr _ | .inr _, .inl _ => rfl
    | .inr a, .inr b => exact (OrientedCmp.eq_swap : cmp₂ a b = (cmp₂ b a).swap)

instance (cmp₁ : α → α → Ordering) (cmp₂ : β → β → Ordering) [TransCmp cmp₁] [TransCmp cmp₂] :
    TransCmp (compareSum cmp₁ cmp₂) where
  eq_swap := (oriented_compareSum cmp₁ cmp₂).eq_swap
  isLE_trans {a b c} hab hbc := by
    match a, b, c with
    | .inl a, .inl b, .inl c => exact (TransCmp.isLE_trans : (cmp₁ a b).isLE → (cmp₁ b c).isLE → (cmp₁ a c).isLE) hab hbc
    | .inl _, _, .inr _ => rfl
    | .inl _, .inr _, .inl _ | .inr _, .inr _, .inl _ => exact nomatch hbc
    | .inr _, .inl _, _ => exact nomatch hab
    | .inr a, .inr b, .inr c => exact (TransCmp.isLE_trans : (cmp₂ a b).isLE → (cmp₂ b c).isLE → (cmp₂ a c).isLE) hab hbc

/-- By what is made of the values -/
def comparing (key : α → β) (cmp : β → β → Ordering) (a b : α) : Ordering := cmp (key a) (key b)

instance (key : α → β) (cmp : β → β → Ordering) [TransCmp cmp] : TransCmp (comparing key cmp) where
  eq_swap {a b} := (OrientedCmp.eq_swap : cmp (key a) (key b) = (cmp (key b) (key a)).swap)
  isLE_trans {a b c} :=
    (TransCmp.isLE_trans : (cmp (key a) (key b)).isLE → (cmp (key b) (key c)).isLE → (cmp (key a) (key c)).isLE)

/-! ### Insertion -/

/-- Before the first element that it is above -/
def insertAbove (above : α → Bool) (a : α) : List α → List α
  | [] => [a]
  | b :: rest => if above b then a :: b :: rest else b :: insertAbove above a rest

theorem insertAbove_perm (above : α → Bool) (a : α) (as : List α) : (insertAbove above a as).Perm (a :: as) := by
  induction as with
  | nil => exact .refl _
  | cons b rest ih =>
    rw [insertAbove]
    split
    · exact .refl _
    · exact (ih.cons b).trans (.swap a b rest)

variable {as : List α} {cmp : α → α → Ordering}

theorem mem_insertAbove {above : α → Bool} {a b : α} : b ∈ insertAbove above a as ↔ b = a ∨ b ∈ as := by
  rw [(insertAbove_perm above a as).mem_iff, List.mem_cons]

/-- A list that does not go up stays so, if the insertion looks at the comparison. -/
theorem pairwise_insertAbove [TransCmp cmp] {above : α → Bool} {a : α}
    (habove : ∀ b ∈ as, above b = (cmp a b == .gt)) (has : as.Pairwise fun b c => (cmp b c).isGE) :
    (insertAbove above a as).Pairwise fun b c => (cmp b c).isGE := by
  induction as with
  | nil => exact List.pairwise_singleton _ _
  | cons b rest ih =>
    obtain ⟨hb, hrest⟩ := List.pairwise_cons.mp has
    have hab := habove b List.mem_cons_self
    rw [insertAbove]
    split
    · rename_i h
      have hgt : cmp a b = .gt := beq_iff_eq.mp (hab ▸ h)
      refine List.pairwise_cons.mpr ⟨fun c hc => ?_, has⟩
      have hge : (cmp a b).isGE := by rw [hgt]; rfl
      rcases List.mem_cons.mp hc with rfl | hc
      · exact hge
      · exact TransCmp.isGE_trans hge (hb c hc)
    · rename_i h
      refine List.pairwise_cons.mpr ⟨fun c hc => ?_, ih (fun c hc => habove c (List.mem_cons_of_mem b hc)) hrest⟩
      rcases mem_insertAbove.mp hc with rfl | hc
      · have hngt : cmp c b ≠ .gt := fun hgt => h (by rw [hab, hgt]; rfl)
        rw [(OrientedCmp.eq_swap : cmp b c = (cmp c b).swap)]
        cases hcb : cmp c b with
        | gt => exact absurd hcb hngt
        | _ => rfl
      · exact hb c hc

/-- Of a list that is not empty, one is the greatest. -/
theorem exists_greatest [TransCmp cmp] (hne : as ≠ []) :
    ∃ a ∈ as, ∀ b ∈ as, (cmp b a).isLE := by
  induction as with
  | nil => exact absurd rfl hne
  | cons a rest ih =>
    have hself : (cmp a a).isLE := by
      rw [(ReflCmp.compare_self : cmp a a = .eq)]
      rfl
    by_cases hrest : rest = []
    · subst hrest
      exact ⟨a, List.mem_cons_self, fun b hb => List.mem_singleton.mp hb ▸ hself⟩
    · obtain ⟨g, hg, hgreatest⟩ := ih hrest
      by_cases hag : (cmp a g).isLE
      · exact ⟨g, List.mem_cons_of_mem _ hg, List.forall_mem_cons.mpr ⟨hag, hgreatest⟩⟩
      · have hga : (cmp g a).isLE := by
          rw [(OrientedCmp.eq_swap : cmp a g = _)] at hag
          cases hcmp : cmp g a <;> simp [hcmp] at hag ⊢
        exact ⟨a, List.mem_cons_self,
          List.forall_mem_cons.mpr ⟨hself, fun b hb => TransCmp.isLE_trans (hgreatest b hb) hga⟩⟩

/-- A list is followed at once by itself and a least element. -/
theorem compareLex_append_least {least : α} (hleast : ∀ a, (cmp least a).isLE) (as bs : List α) :
    (List.compareLex cmp (as ++ [least]) bs).isLE ↔ List.compareLex cmp as bs = .lt := by
  induction as generalizing bs with
  | nil =>
    cases bs with
    | nil => exact iff_of_false nofun nofun
    | cons b bs =>
      refine iff_of_true ?_ rfl
      have hb := hleast b
      rw [List.nil_append, List.compareLex_cons_cons]
      cases hcmp : cmp least b with
      | lt => rfl
      | eq => cases bs <;> rfl
      | gt => exact nomatch hcmp ▸ hb
  | cons a as ih =>
    cases bs with
    | nil => exact iff_of_false nofun nofun
    | cons b bs =>
      rw [List.cons_append, List.compareLex_cons_cons, List.compareLex_cons_cons]
      cases cmp a b with
      | lt => exact iff_of_true rfl rfl
      | eq => exact ih bs
      | gt => exact iff_of_false nofun nofun

end Funbun.Library.Descending
