import Funbun.Strings.Ascii
import Mathlib.Algebra.Group.Nat.Defs

/-! Numbers in texts, in a radix that is not 0. -/
namespace Funbun.Strings

inductive ParseIntError where
  | invalidCharacter
  | overflow
  deriving DecidableEq

def underscore : UInt8 := '_'.toUInt8

/-- Letters are digits, too. -/
def digitValue (c : UInt8) : Option Nat :=
  if '0'.toUInt8 ≤ c ∧ c ≤ '9'.toUInt8 then some (c - '0'.toUInt8).toNat
  else if 'a'.toUInt8 ≤ c ∧ c ≤ 'z'.toUInt8 then some ((c - 'a'.toUInt8).toNat + 10)
  else if 'A'.toUInt8 ≤ c ∧ c ≤ 'Z'.toUInt8 then some ((c - 'A'.toUInt8).toNat + 10)
  else none

/-- One turn of the loop. The numbers are `u128`s. -/
def addDigit (radix acc : Nat) (c : UInt8) : Except ParseIntError Nat :=
  if c = underscore then .ok acc
  else
    match digitValue c with
    | none => .error .invalidCharacter
    | some d =>
      if radix ≤ d then .error .invalidCharacter
      else if acc * radix + d < 2 ^ 128 then .ok (acc * radix + d)
      else .error .overflow

def parseWithSign (digits : List UInt8) (radix : Nat) : Except ParseIntError Nat :=
  if digits = [] ∨ digits.head? = some underscore ∨ digits.getLast? = some underscore then .error .invalidCharacter
  else digits.foldlM (addDigit radix) 0

/-- `try_from` -/
def toI64 (n : Int) : Except ParseIntError Int :=
  if -9223372036854775808 ≤ n ∧ n ≤ 9223372036854775807 then .ok n else .error .overflow

/-- `parse_int::<i64>`, for a radix that is not 0 -/
def parseInt (buf : List UInt8) (radix : Nat) : Except ParseIntError Int := do
  match buf with
  | [] => throw .invalidCharacter
  | c :: rest =>
    let neg := c = '-'.toUInt8
    let acc ← parseWithSign (if c = '+'.toUInt8 ∨ neg then rest else c :: rest) radix
    if neg then if 2 ^ 127 < acc then throw .overflow else toI64 (-acc)
    else toI64 acc

/-- `try_from`, to an unsigned type whose numbers are at most `max` -/
def toUnsigned (max : Nat) (n : Int) : Except ParseIntError Nat :=
  if 0 ≤ n ∧ n ≤ max then .ok n.toNat else .error .overflow

/-- `parse_int`, for an unsigned type and a radix that is not 0 -/
def parseUnsignedInt (max : Nat) (buf : List UInt8) (radix : Nat) : Except ParseIntError Nat := do
  match buf with
  | [] => throw .invalidCharacter
  | c :: rest =>
    let neg := c = '-'.toUInt8
    let acc ← parseWithSign (if c = '+'.toUInt8 ∨ neg then rest else c :: rest) radix
    if neg then if 2 ^ 127 < acc then throw .overflow else toUnsigned max (-acc)
    else toUnsigned max acc

/-- `parse_decimal` -/
def parseDecimal (max : Nat) (s : List UInt8) : Option Nat := (parseUnsignedInt max s 10).toOption

/-- A number as `{}` writes it -/
def display (n : Nat) : List UInt8 := (Nat.toDigits 10 n).map Char.toUInt8

end Funbun.Strings
