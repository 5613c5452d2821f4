import Mathlib.Data.List.Induction
import Mathlib.Logic.Relation
import Mathlib.Logic.Function.Basic

/-! Forests of links.

A node without a link is a root. A tree in which a link is redirected along its own way up keeps its root, and one whose
root is linked to another root joins its tree. -/
namespace Funbun.Library.Forest

variable {α : Type}

/-- `Root link a r`: the way up from `a` ends at `r`. -/
inductive Root (link : α → Option α) : α → α → Prop
  | here {a : α} : link a = none → Root link a a
  | up {a b r : α} : link a = some b → Root link b r → Root link a r

/-- `b` is on the way up from `a`. -/
def Above (link : α → Option α) : α → α → Prop := Relation.ReflTransGen fun a b => link a = some b

variable {link link' : α → Option α} {a b c r r' t : α}

theorem Root.link_eq_none (h : Root link a r) : link r = none := by
  induction h with
  | here h => exact h
  | up _ _ ih => exact ih

theorem Root.eq_of_none (h : Root link a r) (ha : link a = none) : r = a := by
  cases h with
  | here => rfl
  | up hb => exact absurd (ha.symm.trans hb) (Option.some_ne_none _).symm

theorem Root.of_up (h : Root link a r) (ha : link a = some b) : Root link b r := by
  cases h with
  | here hnone => exact absurd (hnone.symm.trans ha) (Option.some_ne_none _).symm
  | up hb h =>
    cases hb.symm.trans ha
    exact h

theorem Root.unique (h : Root link a r) (h' : Root link a r') : r = r' := by
  induction h with
  | here ha => exact (h'.eq_of_none ha).symm
  | up ha _ ih => exact ih (h'.of_up ha)

theorem Root.above (h : Root link a r) : Above link a r := by
  induction h with
  | here => exact .refl
  | up ha _ ih => exact .head ha ih

/-- From a root nothing is above. -/
theorem eq_of_above (ha : link a = none) (h : Above link a b) : b = a := by
  cases h.cases_head with
  | inl heq => exact heq.symm
  | inr hstep =>
    obtain ⟨c, hc, -⟩ := hstep
    exact absurd (ha.symm.trans hc) (Option.some_ne_none _).symm

/-- A node with a root is on no cycle. -/
theorem Root.not_cycle (h : Root link a r) : ¬Relation.TransGen (fun a b => link a = some b) a a := by
  induction h with
  | here ha =>
    intro hcycle
    obtain ⟨c, hc, -⟩ := Relation.TransGen.head'_iff.mp hcycle
    exact absurd (ha.symm.trans hc) (Option.some_ne_none _).symm
  | @up a b r ha _ ih =>
    intro hcycle
    obtain ⟨c, hc, hca⟩ := Relation.TransGen.head'_iff.mp hcycle
    cases ha.symm.trans hc
    exact ih (Relation.TransGen.tail'_iff.mpr ⟨a, hca, ha⟩)

theorem Root.not_above (h : Root link a r) (ha : link a = some b) : ¬Above link b a :=
  fun hba => h.not_cycle (Relation.TransGen.head' ha hba)

/-! ### Links that change -/

/-- A way up depends on the links on it. -/
theorem Root.congr (h : Root link a r) (heq : ∀ c, Above link a c → link' c = link c) : Root link' a r := by
  induction h with
  | here ha => exact .here ((heq _ .refl).trans ha)
  | up ha _ ih => exact .up ((heq _ .refl).trans ha) (ih fun c hc => heq c (.head ha hc))

theorem above_congr (heq : ∀ c, Above link a c → link' c = link c) (h : Above link' a b) : Above link a b := by
  induction h with
  | refl => exact .refl
  | tail _ hstep ih =>
    rw [heq _ ih] at hstep
    exact ih.tail hstep

section Update
variable [DecidableEq α]

/-- A link may be set to any node of its tree that is not under it. -/
theorem Root.redirect (ha : Root link a r) (hlink : link a ≠ none) (ht : Root link t r) (hnot : ¬Above link t a)
    (h : Root link b r') : Root (Function.update link a (some t)) b r' := by
  have htarget : Root (Function.update link a (some t)) t r := by
    refine ht.congr fun c hc => Function.update_of_ne ?_ ..
    rintro rfl
    exact hnot hc
  induction h with
  | @here b hb =>
    refine .here ?_
    rw [Function.update_of_ne]
    · exact hb
    · rintro rfl
      exact hlink hb
  | @up b c r' hb h ih =>
    by_cases hba : b = a
    · subst hba
      obtain rfl := ha.unique (.up hb h)
      exact .up (Function.update_self ..) htarget
    · exact .up ((Function.update_of_ne hba ..).trans hb) ih

theorem above_of_redirect (hnot : ¬Above link t a) (h : Above (Function.update link a (some t)) t b) : Above link t b := by
  refine above_congr (fun c hc => Function.update_of_ne ?_ ..) h
  rintro rfl
  exact hnot hc

/-- A root that is linked to another root brings its tree along. -/
theorem Root.attach (ha : link a = none) (ht : link t = none) (hne : t ≠ a) (h : Root link b r) :
    Root (Function.update link a (some t)) b (if r = a then t else r) := by
  have htarget : Root (Function.update link a (some t)) t t := .here ((Function.update_of_ne hne ..).trans ht)
  induction h with
  | @here b hb =>
    split
    · rename_i heq
      subst heq
      exact .up (Function.update_self ..) htarget
    · rename_i hba
      exact .here ((Function.update_of_ne hba ..).trans hb)
  | @up b c r hb _ ih =>
    refine .up ((Function.update_of_ne ?_ ..).trans hb) ih
    rintro rfl
    exact absurd (ha.symm.trans hb) (Option.some_ne_none _).symm

end Update

/-! ### What joining makes of the roots -/

section Joining
variable [DecidableEq α]

/-- The representatives when `old` was joined to `new`. -/
def join (rep : α → α) (old new : α) (a : α) : α := if rep a = rep old then rep new else rep a

/-- The representatives after some joins, from the start where every node is its own. -/
def reps (joins : List (α × α)) : α → α := joins.foldl (fun rep j => join rep j.1 j.2) id

theorem reps_append (joins : List (α × α)) (old new : α) :
    reps (joins ++ [(old, new)]) = join (reps joins) old new := by
  rw [reps, List.foldl_append]
  rfl

theorem reps_idem (joins : List (α × α)) (a : α) : reps joins (reps joins a) = reps joins a := by
  induction joins using List.reverseRecOn generalizing a with
  | nil => rfl
  | append_singleton joins j ih =>
    rw [reps_append]
    unfold join
    split <;> split <;> simp_all

/-- Nodes have the same representative if they are connected by joins. -/
theorem reps_eq_iff {joins : List (α × α)} {a b : α} :
    reps joins a = reps joins b ↔ Relation.EqvGen (fun a b => (a, b) ∈ joins) a b := by
  constructor
  · induction joins using List.reverseRecOn generalizing a b with
    | nil =>
      rintro rfl
      exact .refl _
    | append_singleton joins j ih =>
      have hkept : ∀ {a b}, reps joins a = reps joins b → Relation.EqvGen (fun a b => (a, b) ∈ joins ++ [j]) a b :=
        fun h => (ih h).mono fun _ _ hmem => List.mem_append_left _ hmem
      have hnew : Relation.EqvGen (fun a b => (a, b) ∈ joins ++ [j]) j.1 j.2 :=
        .rel _ _ (List.mem_append_right _ List.mem_cons_self)
      rw [reps_append]
      unfold join
      intro h
      split at h <;> split at h
      · rename_i ha hb
        exact hkept (ha.trans hb.symm)
      · rename_i ha hb
        exact ((hkept ha).trans _ _ _ hnew).trans _ _ _ (hkept h)
      · rename_i ha hb
        exact ((hkept h).trans _ _ _ (hnew.symm _ _)).trans _ _ _ ((hkept hb).symm _ _)
      · exact hkept h
  · intro h
    induction h with
    | rel a b hmem =>
      induction joins using List.reverseRecOn with
      | nil => cases hmem
      | append_singleton joins j ih =>
        rw [reps_append]
        unfold join
        rcases List.mem_append.mp hmem with hmem | hmem
        · rw [ih hmem]
        · obtain rfl := List.mem_singleton.mp hmem
          simp
    | refl => rfl
    | symm _ _ _ ih => exact ih.symm
    | trans _ _ _ _ _ ih ih' => exact ih.trans ih'

end Joining

end Funbun.Library.Forest
