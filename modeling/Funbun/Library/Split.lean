import Mathlib.Data.List.Basic

/-! Inputs that are split into units.

A parser takes a unit from the front of the input, or finds none. What comes later does not change the units that are
there, and what is left is taken up again with what comes. -/
namespace Funbun.Library
variable {α β : Type}

/-- What a parser of units owes. -/
structure Front (parse : List α → Option (β × List α)) : Prop where
  shorter : ∀ {input unit rest}, parse input = some (unit, rest) → rest.length < input.length
  longer : ∀ {input unit rest} (more : List α), parse input = some (unit, rest) →
    parse (input ++ more) = some (unit, rest ++ more)

/-- As many units as there is fuel, and what is left -/
def splitFuel (parse : List α → Option (β × List α)) : Nat → List α → List β × List α
  | 0, input => ([], input)
  | fuel + 1, input =>
    match parse input with
    | none => ([], input)
    | some (unit, rest) => (unit :: (splitFuel parse fuel rest).1, (splitFuel parse fuel rest).2)

/-- The units, and what is left -/
def split (parse : List α → Option (β × List α)) (input : List α) : List β × List α :=
  splitFuel parse input.length input

namespace Front
variable {parse : List α → Option (β × List α)} (h : Front parse) {input rest : List α} {unit : β}
include h

theorem splitFuel_eq (n m : Nat) (input : List α) (hn : input.length ≤ n) (hm : input.length ≤ m) :
    splitFuel parse n input = splitFuel parse m input := by
  have hempty : parse [] = none := by
    cases hparse : parse [] with
    | none => rfl
    | some found => exact absurd (h.shorter hparse) (Nat.not_lt_zero _)
  induction n generalizing m input with
  | zero =>
    obtain rfl := List.eq_nil_of_length_eq_zero (Nat.le_zero.mp hn)
    cases m with
    | zero => rfl
    | succ m =>
      rw [splitFuel, splitFuel, hempty]
  | succ n ih =>
    cases m with
    | zero =>
      obtain rfl := List.eq_nil_of_length_eq_zero (Nat.le_zero.mp hm)
      rw [splitFuel, splitFuel, hempty]
    | succ m =>
      rw [splitFuel, splitFuel]
      cases hparse : parse input with
      | none => rfl
      | some found =>
        obtain ⟨unit, rest⟩ := found
        have hlt := h.shorter hparse
        simp only [ih m rest (by omega) (by omega)]

omit h in
theorem split_none (hparse : parse input = none) : split parse input = ([], input) := by
  unfold split
  cases input with
  | nil => rfl
  | cons a input =>
    rw [List.length_cons, splitFuel, hparse]

theorem split_some (hparse : parse input = some (unit, rest)) :
    split parse input = (unit :: (split parse rest).1, (split parse rest).2) := by
  have hlt := h.shorter hparse
  unfold split
  obtain ⟨n, hn⟩ := Nat.exists_eq_succ_of_ne_zero (Nat.ne_zero_of_lt hlt)
  rw [hn, splitFuel, hparse]
  simp only [h.splitFuel_eq n rest.length rest (by omega) (Nat.le_refl _)]

/-- What is left is taken up with what comes. -/
theorem split_append (input more : List α) :
    split parse (input ++ more) =
      ((split parse input).1 ++ (split parse ((split parse input).2 ++ more)).1,
        (split parse ((split parse input).2 ++ more)).2) := by
  induction hlen : input.length using Nat.strongRecOn generalizing input with
  | _ n ih =>
    cases hparse : parse input with
    | none =>
      rw [split_none hparse]
      rfl
    | some found =>
      obtain ⟨unit, rest⟩ := found
      rw [h.split_some hparse, h.split_some (h.longer more hparse), ih _ (hlen ▸ h.shorter hparse) rest rfl]
      rfl

end Front

end Funbun.Library
