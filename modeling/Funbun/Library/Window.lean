import Mathlib.Algebra.BigOperators.Group.List.Basic
import Mathlib.Algebra.Ring.Int.Defs

/-! Credit windows.

A sender may spend what its window allows. The receiver credits the window, and may lower what it was opened with at any
time: its level may be negative then. That no level goes below `-maximum` follows from what was spent against what was
credited. -/
namespace Funbun.Library

/-! ### Amounts by key -/

section Ledger
variable {κ : Type} [DecidableEq κ]

/-- The amounts of a key, together. -/
def balance (entries : List (κ × Int)) (key : κ) : Int := ((entries.filter fun e => e.1 = key).map (·.2)).sum

theorem balance_append (es fs : List (κ × Int)) (key : κ) : balance (es ++ fs) key = balance es key + balance fs key := by
  simp only [balance, List.filter_append, List.map_append, List.sum_append]

@[simp] theorem balance_self (key : κ) (n : Int) : balance [(key, n)] key = n := by
  simp [balance]

theorem balance_of_ne {es : List (κ × Int)} {key : κ} (h : ∀ e ∈ es, e.1 ≠ key) : balance es key = 0 := by
  have hfilter : es.filter (fun e => e.1 = key) = [] := List.filter_eq_nil_iff.mpr fun e he => by simpa using h e he
  rw [balance, hfilter]
  rfl

theorem balance_of_eq {es : List (κ × Int)} {key : κ} (h : ∀ e ∈ es, e.1 = key) :
    balance es key = (es.map (·.2)).sum := by
  have hfilter : es.filter (fun e => e.1 = key) = es := List.filter_eq_self.mpr fun e he => by simpa using h e he
  rw [balance, hfilter]

end Ledger

/-! ### The window -/

structure Window where
  initial : Int
  credited : Int
  spent : Int

namespace Window

def level (w : Window) : Int := w.initial + w.credited - w.spent

def credit (w : Window) (n : Int) : Window := {w with credited := w.credited + n}

def spend (w : Window) (n : Int) : Window := {w with spent := w.spent + n}

def resize (w : Window) (initial : Int) : Window := {w with initial := initial}

@[simp] theorem level_credit (w : Window) (n : Int) : (w.credit n).level = w.level + n := by
  simp only [level, credit]
  omega

@[simp] theorem level_spend (w : Window) (n : Int) : (w.spend n).level = w.level - n := by
  simp only [level, spend]
  omega

@[simp] theorem level_resize (w : Window) (initial : Int) : (w.resize initial).level = w.level + (initial - w.initial) := by
  simp only [level, resize]
  omega

/-- What holds of a window that is never credited past `maximum`, and never spent past its level. -/
structure Sound (maximum : Int) (w : Window) : Prop where
  initial_nonneg : 0 ≤ w.initial
  initial_le : w.initial ≤ maximum
  level_le : w.level ≤ maximum
  spent_le : w.spent ≤ maximum + w.credited

variable {maximum : Int} {w : Window}

theorem Sound.le_level (h : w.Sound maximum) : -maximum ≤ w.level := by
  have hinitial := h.initial_nonneg
  have hspent := h.spent_le
  unfold level
  omega

theorem Sound.new {initial : Int} (h₀ : 0 ≤ initial) (h : initial ≤ maximum) : Sound maximum ⟨initial, 0, 0⟩ where
  initial_nonneg := h₀
  initial_le := h
  level_le := by
    simp only [level]
    omega
  spent_le := by
    show 0 ≤ maximum + 0
    omega

theorem Sound.credit (h : w.Sound maximum) {n : Int} (hn : 0 ≤ n) (hle : w.level + n ≤ maximum) :
    (w.credit n).Sound maximum where
  initial_nonneg := h.initial_nonneg
  initial_le := h.initial_le
  level_le := by rwa [level_credit]
  spent_le := by
    have hspent := h.spent_le
    show w.spent ≤ maximum + (w.credited + n)
    omega

/-- Nothing is spent, or the level does not become negative. -/
theorem Sound.spend (h : w.Sound maximum) {n : Int} (hn : 0 ≤ n) (hcover : n = 0 ∨ 0 ≤ w.level - n) :
    (w.spend n).Sound maximum where
  initial_nonneg := h.initial_nonneg
  initial_le := h.initial_le
  level_le := by
    have hle := h.level_le
    rw [level_spend]
    omega
  spent_le := by
    have hspent := h.spent_le
    have hinitial := h.initial_le
    show w.spent + n ≤ maximum + w.credited
    unfold level at hcover
    omega

theorem Sound.resize (h : w.Sound maximum) {initial : Int} (h₀ : 0 ≤ initial) (hinitial : initial ≤ maximum)
    (hle : w.level + (initial - w.initial) ≤ maximum) : (w.resize initial).Sound maximum where
  initial_nonneg := h₀
  initial_le := hinitial
  level_le := by rwa [level_resize]
  spent_le := h.spent_le

end Window

end Funbun.Library
