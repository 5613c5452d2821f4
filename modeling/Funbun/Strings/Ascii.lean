import Mathlib.Data.List.Basic

/-! Texts of bytes. -/
namespace Funbun.Strings

/-- The bytes of a text that is written down in the source -/
def ascii (s : String) : List UInt8 := s.toList.map Char.toUInt8

def toLower (c : UInt8) : UInt8 := if 'A'.toUInt8 ≤ c ∧ c ≤ 'Z'.toUInt8 then c + 32 else c

/-- Texts that are the same but for the case of ASCII letters -/
def eqlCaseInsensitive (a b : List UInt8) : Bool := a.map toLower == b.map toLower

/-- `strings::index_of_char`, whose result is cast to a `u32` -/
def indexOfChar (slice : List UInt8) (char : UInt8) : Option Nat := (slice.findIdx? (· == char)).map (· % 4294967296)

end Funbun.Strings
