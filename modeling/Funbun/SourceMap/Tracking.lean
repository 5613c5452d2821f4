import Funbun.SourceMap.LineOffsetTable

/-! How the builder follows the line and the column of the code that is printed.

It looks at what has been printed since the last time. Without a line break or a character that is not ASCII the column
moves by the length; else the characters are read one by one. -/
namespace Funbun.SourceMap
open Library Strings LineOffsetTable.Generator

/-- The builder, and how much of the output it has seen -/
structure Tracker where
  builder : Builder
  lastGeneratedUpdate : Nat

namespace Tracker

/-- One turn of `update_generated_line_and_column_slow` at place `i` of what is new. The turn that breaks out of the loop
moves to the end. -/
def turn (output slice : List UInt8) (last i : Nat) (b : Builder) : Checked (Nat × Builder) := do
  let lead ← indexAt slice i
  let len := wtf8ByteSequenceLength lead
  let c := decodeWtf8Rune ((slice.drop i).take len) len 0xFFFD
  let i := i + len
  if 14 ≤ c ∧ c ≤ 127 then
    match ← indexOfNewlineOrNonAscii slice i with
    | some j => return (j, b.step (.text (j - i + 1)))
    | none =>
      let remaining ← sliceFrom slice i
      return (slice.length, b.step (.text (remaining.length + 1)))
  else if isLineBreak c then
    if c = 0x0D ∧ output[last + i + 1]? = some 0x0A then return (i, b) else return (i, b.step .newline)
  else return (i, b.step (.text (if 0xFFFF < c then 2 else 1)))

def loop (output slice : List UInt8) (last : Nat) : Nat → Nat → Builder → Checked Builder
  | 0, i, b => if i < slice.length then .error .fuel else .ok b
  | n + 1, i, b =>
    if i < slice.length then do
      let (i, b) ← turn output slice last i b
      loop output slice last n i b
    else .ok b

def updateGeneratedLineAndColumnSlow (t : Tracker) (output : List UInt8) : Checked Tracker := do
  let slice ← sliceFrom output t.lastGeneratedUpdate
  let b ← loop output slice t.lastGeneratedUpdate slice.length 0 t.builder
  return ⟨b, u32 output.length⟩

def pureAscii (slice : List UInt8) : Checked Bool :=
  if slice.length < 16 then .ok (!slice.any isNewlineOrNonAscii)
  else do return (← indexOfNewlineOrNonAscii slice 0).isNone

def updateGeneratedLineAndColumn (t : Tracker) (output : List UInt8) : Checked Tracker := do
  let slice ← sliceFrom output t.lastGeneratedUpdate
  if ← pureAscii slice then return ⟨t.builder.step (.text slice.length), u32 output.length⟩
  else t.updateGeneratedLineAndColumnSlow output

/-- The calls while code is printed: the output up to there, and the place of a mapping if one is added then -/
def run (t : Tracker) : List (List UInt8 × Option (Int × Int)) → Checked Tracker
  | [] => .ok t
  | (output, place) :: calls => do
    let t ← t.updateGeneratedLineAndColumn output
    match place with
    | none => run t calls
    | some (line, column) => run {t with builder := t.builder.step (.mapping line column)} calls

end Tracker
end Funbun.SourceMap
