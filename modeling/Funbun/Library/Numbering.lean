import Mathlib.Data.Nat.Basic
import Mathlib.Order.Bounds.Basic

/-! Numbers that are drawn from one counter, and numbers written without a zero. -/
namespace Funbun.Library.Numbering
variable {α : Type}

/-! ### Drawing -/

/-- Each of a list draws a number at the counter, which goes on behind it. -/
inductive Drawn (draws : α → Nat → Nat → Prop) : Nat → List α → List Nat → Nat → Prop
  | nil {next} : Drawn draws next [] [] next
  | cons {next a as n ns last} : draws a next n → Drawn draws (n + 1) as ns last →
      Drawn draws next (a :: as) (n :: ns) last

namespace Drawn
variable {draws fits : α → Nat → Nat → Prop} {next last last' : Nat} {as : List α} {ns ns' : List Nat}

theorem length_eq (h : Drawn draws next as ns last) : ns.length = as.length := by
  induction h with
  | nil => rfl
  | cons _ _ ih => rw [List.length_cons, List.length_cons, ih]

theorem le_of_mem (hle : ∀ a next n, draws a next n → next ≤ n) (h : Drawn draws next as ns last) :
    ∀ n ∈ ns, next ≤ n := by
  induction h with
  | nil => exact fun n hn => nomatch hn
  | cons hdraw _ ih =>
    intro n hn
    have hfirst := hle _ _ _ hdraw
    rcases List.mem_cons.mp hn with rfl | hn
    · exact hfirst
    · have := ih n hn
      omega

theorem increasing (hle : ∀ a next n, draws a next n → next ≤ n) (h : Drawn draws next as ns last) :
    ns.Pairwise (· < ·) := by
  induction h with
  | nil => exact .nil
  | cons _ hrest ih => exact .cons (hrest.le_of_mem hle) ih

/-- What is drawn was drawn by a member of the list. -/
theorem exists_draw (h : Drawn draws next as ns last) {a : α} {n : Nat} (hmem : (a, n) ∈ as.zip ns) :
    ∃ at', draws a at' n := by
  induction h with
  | nil => exact nomatch hmem
  | cons hdraw _ ih =>
    rw [List.zip_cons_cons] at hmem
    rcases List.mem_cons.mp hmem with heq | hmem
    · obtain ⟨rfl, rfl⟩ := Prod.mk.inj heq
      exact ⟨_, hdraw⟩
    · exact ih hmem

theorem unique (hdraws : ∀ a next n n', draws a next n → draws a next n' → n = n') (h : Drawn draws next as ns last)
    (h' : Drawn draws next as ns' last') : ns = ns' := by
  induction h generalizing ns' with
  | nil =>
    cases h'
    rfl
  | cons hdraw _ ih =>
    cases h' with
    | cons hdraw' hrest' =>
      obtain rfl := hdraws _ _ _ _ hdraw hdraw'
      rw [ih hrest']

/-- Every number drawn is good just when none is bad that is drawn behind fitting ones. A draw fits if it is good. -/
theorem forall_good (good : Nat → Prop) (hdraws : ∀ a next n n', draws a next n → draws a next n' → n = n')
    (hfits : ∀ a next n, draws a next n → good n → ∀ n', fits a next n' ↔ n' = n) (h : Drawn draws next as ns last) :
    (∀ n ∈ ns, good n) ↔ ∀ before a after numbers at' n, as = before ++ a :: after →
      Drawn fits next before numbers at' → draws a at' n → good n := by
  constructor
  · intro hgood before a after numbers at' n heq hbefore hdraw
    induction h generalizing before numbers with
    | nil => simp at heq
    | cons hfirst _ ih =>
      rw [List.forall_mem_cons] at hgood
      cases hbefore with
      | nil =>
        obtain ⟨rfl, -⟩ := List.cons.inj heq
        obtain rfl := hdraws _ _ _ _ hfirst hdraw
        exact hgood.1
      | cons hfit hbefore =>
        obtain ⟨rfl, hrest⟩ := List.cons.inj heq
        obtain rfl := (hfits _ _ _ hfirst hgood.1 _).mp hfit
        exact ih hgood.2 _ _ hrest hbefore
  · intro hall
    induction h with
    | nil => exact fun n hn => nomatch hn
    | cons hfirst _ ih =>
      have hgood := hall [] _ _ [] _ _ rfl .nil hfirst
      refine List.forall_mem_cons.mpr ⟨hgood, ih fun before a after numbers at' n heq hbefore hdraw => ?_⟩
      exact hall (_ :: before) a after _ at' n (congrArg _ heq)
        (.cons ((hfits _ _ _ hfirst hgood _).mpr rfl) hbefore) hdraw

end Drawn

/-! ### Numbers without a zero -/

/-- The digits of a number, the least one first, where `0` stands for one and `k - 1` for `k`. -/
def digits (k : Nat) : Nat → Nat → List Nat
  | 0, _ => []
  | _ + 1, 0 => []
  | fuel + 1, i + 1 => i % k :: digits k fuel (i / k)

/-- The number that digits are of -/
def value (k : Nat) : List Nat → Nat
  | [] => 0
  | d :: ds => d + k * value k ds + 1

theorem value_digits (k : Nat) {fuel i : Nat} (h : i ≤ fuel) : value k (digits k fuel i) = i := by
  induction fuel generalizing i with
  | zero => exact (Nat.le_zero.mp h).symm
  | succ fuel ih =>
    cases i with
    | zero => rfl
    | succ i =>
      have hrest := ih (Nat.le_trans (Nat.div_le_self i k) (Nat.le_of_succ_le_succ h))
      rw [digits, value, hrest, Nat.mod_add_div]

theorem digits_lt {k : Nat} (hk : 0 < k) (fuel i : Nat) : ∀ d ∈ digits k fuel i, d < k := by
  induction fuel generalizing i with
  | zero => exact fun d hd => nomatch hd
  | succ fuel ih =>
    cases i with
    | zero => exact fun d hd => nomatch hd
    | succ i => exact List.forall_mem_cons.mpr ⟨Nat.mod_lt i hk, ih (i / k)⟩

end Funbun.Library.Numbering
