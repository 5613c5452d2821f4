import Mathlib.Data.List.Pairwise

/-! Lists in which some elements stand before others.

In a queue what is being served stands before what waits. One place of such a list may change, if what comes to serve has
nothing waiting before it. -/
namespace Funbun.Library
variable {α : Type} {p w : α → Bool}

variable {l m : List α} {a : α}

theorem forall_mem_replace {a b : α} {P : α → Prop} (h : ∀ x ∈ l ++ a :: m, P x) (hb : P b) :
    ∀ x ∈ l ++ b :: m, P x := by
  intro x hx
  rcases List.mem_append.mp hx with hx | hx
  · exact h x (List.mem_append_left _ hx)
  · rcases List.mem_cons.mp hx with rfl | hx
    · exact hb
    · exact h x (List.mem_append_right _ (List.mem_cons_of_mem _ hx))

/-- Every element with `p` stands before every one with `w`. -/
def Ahead (p w : α → Bool) (l : List α) : Prop := l.Pairwise fun a b => p b = true → w a = false

theorem Ahead.sublist (h : Ahead p w m) (hl : l.Sublist m) : Ahead p w l := List.Pairwise.sublist hl h

theorem Ahead.concat (h : Ahead p w l) (ha : p a = true → ∀ x ∈ l, w x = false) :
    Ahead p w (l ++ [a]) := by
  apply List.pairwise_append.mpr
  refine ⟨h, List.pairwise_singleton _ a, fun x hx b hb hp => ?_⟩
  rw [List.mem_singleton] at hb
  subst hb
  exact ha hp x hx

theorem Ahead.none_behind (h : Ahead p w (l ++ a :: m)) (ha : w a = true) :
    ∀ x ∈ m, p x = false := by
  intro x hx
  have hrest := (List.pairwise_cons.mp (List.pairwise_append.mp h).2.1).1 x hx
  by_contra hp
  rw [hrest (by simpa using hp)] at ha
  cases ha

theorem Ahead.replace {a b : α} (h : Ahead p w (l ++ a :: m))
    (hbefore : p b = true → ∀ x ∈ l, w x = false) (hbehind : w b = true → ∀ x ∈ m, p x = false) :
    Ahead p w (l ++ b :: m) := by
  obtain ⟨hl, hm, hlm⟩ := List.pairwise_append.mp h
  refine List.pairwise_append.mpr ⟨hl, List.pairwise_cons.mpr ⟨?_, (List.pairwise_cons.mp hm).2⟩, ?_⟩
  · intro x hx hp
    cases hw : w b with
    | false => rfl
    | true => exact absurd hp (by simp [hbehind hw x hx])
  · intro x hx y hy
    rcases List.mem_cons.mp hy with rfl | hy
    · exact fun hp => hbefore hp x hx
    · exact hlm x hx y (List.mem_cons_of_mem _ hy)

theorem Ahead.take_countP (h : Ahead p w l) (hpw : ∀ x, p x = true → w x = false) {n : Nat}
    (hn : n ≤ l.countP p) : ∀ x ∈ l.take n, w x = false := by
  induction l generalizing n with
  | nil =>
    intro x hx
    simp at hx
  | cons a l ih =>
    cases n with
    | zero =>
      intro x hx
      simp at hx
    | succ n =>
      obtain ⟨ha, hl⟩ := List.pairwise_cons.mp h
      have hwait : w a = false := by
        by_contra hw
        have hnone : ∀ x ∈ l, p x = false := by
          intro x hx
          by_contra hp
          exact hw (ha x hx (by simpa using hp))
        have hzero : l.countP p = 0 := List.countP_eq_zero.mpr fun x hx => by simp [hnone x hx]
        have hpa : p a = false := by
          by_contra hp
          exact hw (hpw a (by simpa using hp))
        rw [List.countP_cons, hzero, hpa] at hn
        exact absurd hn (by simp)
      have hrest : n ≤ l.countP p := by
        rw [List.countP_cons] at hn
        split at hn <;> omega
      intro x hx
      rw [List.take_succ_cons] at hx
      rcases List.mem_cons.mp hx with rfl | hx
      · exact hwait
      · exact ih hl hrest x hx

end Funbun.Library
