import Mathlib.Order.WellFoundedSet

/-! Procedures that call themselves.

`Calls a b` says that a call at `a` makes one at `b`. A run hands strictly less fuel to the calls it makes, so no call that
returns can lead back to itself; where only finitely many calls are possible, that is all that can go wrong. -/
namespace Funbun.Library.Nesting
open Relation

variable {α : Type} {Calls : α → α → Prop} {R : Nat → α → Prop}

/-- No call that `a` leads to leads back to itself. -/
def NeverReenters (Calls : α → α → Prop) (a : α) : Prop :=
  ∀ b, ReflTransGen Calls a b → ¬ TransGen Calls b b

theorem NeverReenters.call {a b : α} (h : NeverReenters Calls a) (hab : Calls a b) :
    NeverReenters Calls b :=
  fun c hc => h c (.head hab hc)

section
variable (inner : ∀ n a b, R n a → Calls a b → ∃ k < n, R k b)
include inner

theorem returns_transGen {n : Nat} {a b : α} (hn : R n a) (h : TransGen Calls a b) :
    ∃ k < n, R k b := by
  induction h with
  | single hab => exact inner n a _ hn hab
  | tail _ hbc ih =>
    obtain ⟨k, hk, hb⟩ := ih
    obtain ⟨j, hj, hc⟩ := inner k _ _ hb hbc
    exact ⟨j, hj.trans hk, hc⟩

/-- A call that leads back to itself does not return, however much fuel it has. -/
theorem not_returns_of_reenters {a : α} (h : TransGen Calls a a) (n : Nat) : ¬ R n a := by
  induction n using Nat.strong_induction_on with
  | _ n ih =>
    intro hn
    obtain ⟨k, hk, ha⟩ := returns_transGen inner hn h
    exact ih k hk ha

theorem neverReenters_of_returns {n : Nat} {a : α} (hn : R n a) : NeverReenters Calls a := by
  intro b hab hbb
  rcases reflTransGen_iff_eq_or_transGen.mp hab with rfl | hab
  · exact not_returns_of_reenters inner hbb n hn
  · obtain ⟨k, -, hb⟩ := returns_transGen inner hn hab
    exact not_returns_of_reenters inner hbb k hb

end

/-- Among finitely many calls, one that never leads back to itself leads to no endless
nesting. -/
theorem NeverReenters.acc {nodes : Set α} (hfin : nodes.Finite) (hcalls : ∀ a b, Calls a b → b ∈ nodes)
    {a : α} (h : NeverReenters Calls a) : Acc (fun b c => Calls c b) a := by
  let Below (c b : α) : Prop := ReflTransGen Calls a b ∧ TransGen Calls b c
  have hstrict : IsStrictOrder α Below :=
    { irrefl := fun b hb => h b hb.1 hb.2
      trans := fun x y z hxy hyz => ⟨hyz.1, hyz.2.trans hxy.2⟩ }
  have hwf : nodes.WellFoundedOn Below := hfin.wellFoundedOn
  have hacc : ∀ b ∈ nodes, ReflTransGen Calls a b → Acc (fun b c => Calls c b) b := by
    intro b hb
    apply hwf.induction hb (P := fun b => ReflTransGen Calls a b → Acc (fun b c => Calls c b) b)
    intro c _ ih hac
    apply Acc.intro
    intro d hcd
    exact ih d (hcalls c d hcd) ⟨hac, .single hcd⟩ (hac.tail hcd)
  apply Acc.intro
  intro b hab
  exact hacc b (hcalls a b hab) (.single hab)

end Funbun.Library.Nesting
