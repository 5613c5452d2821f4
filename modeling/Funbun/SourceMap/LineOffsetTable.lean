import Funbun.Strings.Wtf8
import Funbun.SourceMap.Lookup

/-! Where the lines of a source start.

A table has a row for every line. The columns of a line are its UTF-16 units. They are stored only for a line that is not
all ASCII, and only from its first character on that is not. -/
namespace Funbun.SourceMap
open Library Strings

/-- A number as a `u32` -/
def u32 (n : Int) : Nat := (n % UInt32.size).toNat

/-- `i32::MAX` -/
def i32Max : Nat := 2147483647

structure LineOffsetTable where
  columnsForNonAscii : List Int
  byteOffsetToFirstNonAscii : Nat
  byteOffsetToStartOfLine : Nat
  deriving DecidableEq

namespace LineOffsetTable

/-! ### Finding a line -/

def findLine (byteOffsetsToStartOfLine : List Nat) (loc : Nat) : Int :=
  (halve (fun i => (byteOffsetsToStartOfLine[i]?).any (· ≤ loc)) 0 byteOffsetsToStartOfLine.length : Int) - 1

/-- `h + k == len || loc < offsets[h + k]` -/
def endsBehind (offsets : List Nat) (loc k : Nat) : Bool := k == offsets.length || (offsets[k]?).any (loc < ·)

/-- The hint and the two lines behind it are tried first. -/
def findLineWithHint (offsets : List Nat) (loc hint : Nat) : Int :=
  if (offsets[hint]?).any (· ≤ loc) then
    if endsBehind offsets loc (hint + 1) then i32 hint
    else if endsBehind offsets loc (hint + 2) then i32 (i32 hint + 1)
    else if endsBehind offsets loc (hint + 3) then i32 (i32 hint + 2)
    else findLine offsets loc
  else findLine offsets loc

/-- The column of `add_source_mapping` at a place on line `idx` -/
def originalColumn (tables : List LineOffsetTable) (loc idx : Nat) : Checked Int := do
  let table ← indexAt tables idx
  let column := i32 (loc - i32 table.byteOffsetToStartOfLine)
  if i32 table.byteOffsetToFirstNonAscii ≤ column ∧ table.columnsForNonAscii ≠ [] then
    indexAt table.columnsForNonAscii (u32 (column - table.byteOffsetToFirstNonAscii))
  else return column

/-! ### Generating -/

/-- What is known while the source is read -/
structure Generator where
  list : List LineOffsetTable
  column : Int
  byteOffsetToFirstNonAscii : Nat
  columnByteOffset : Nat
  lineByteOffset : Nat
  columnsForNonAscii : List Int

namespace Generator

def init : Generator := ⟨[], 0, i32Max, 0, 0, []⟩

/-- A line starts where the column is zero. -/
def startLine (s : Generator) (offset : Nat) : Generator := if s.column = 0 then {s with lineByteOffset := offset} else s

/-- The first character of a line that is not ASCII -/
def meetNonAscii (s : Generator) (c offset : Nat) : Generator :=
  if 0x7F < c ∧ s.columnsForNonAscii = [] then
    let columnByteOffset := u32 (offset - s.lineByteOffset)
    {s with columnsForNonAscii := [s.column], columnByteOffset, byteOffsetToFirstNonAscii := columnByteOffset}
  else s

/-- The state in which the character at an offset is counted -/
def prepare (s : Generator) (c offset : Nat) : Generator := (s.startLine offset).meetNonAscii c offset

/-- The column of every byte up to here -/
def fillColumns (s : Generator) (offset : Nat) : Generator :=
  if s.columnsForNonAscii = [] then s
  else
    let lineBytesSoFar := u32 (offset - s.lineByteOffset)
    let need := u32 (u32 (lineBytesSoFar - s.columnByteOffset) + 1)
    { s with
      columnsForNonAscii := s.columnsForNonAscii ++ List.replicate need s.column
      columnByteOffset := u32 (lineBytesSoFar + 1) }

def appendRow (s : Generator) : Generator :=
  { s with
    list := s.list ++ [⟨s.columnsForNonAscii, s.byteOffsetToFirstNonAscii, s.lineByteOffset⟩]
    columnsForNonAscii := [] }

def newline (s : Generator) : Generator :=
  {s.appendRow with column := 0, byteOffsetToFirstNonAscii := i32Max, columnByteOffset := 0, lineByteOffset := 0}

def advance (s : Generator) (columns : Nat) : Generator := {s with column := i32 (s.column + columns)}

/-- The rest of a source that has only ASCII up to here, up to the next line break or character that is not ASCII -/
def skipAscii (remaining : List UInt8) (len : Nat) (s : Generator) : Checked (List UInt8 × Generator) := do
  match ← indexOfNewlineOrNonAsciiCheckStart false remaining len with
  | some j =>
    let columns ← castTo i32Max j
    return (← sliceFrom remaining j, s.advance columns)
  | none =>
    let columns ← castTo i32Max remaining.length
    return (← sliceFrom remaining remaining.length, s.advance columns)

/-- The character at the front. Bytes that are missing are zero. -/
def decodeFront (remaining : List UInt8) (b0 : UInt8) : Nat :=
  let len := wtf8ByteSequenceLength b0
  if len = 1 then b0.toNat else decodeWtf8Rune (remaining.take len) len 0

def isLineBreak (c : Nat) : Bool := c == 0x0D || c == 0x0A || c == 0x2028 || c == 0x2029

/-- One turn of the loop, `b0` being the first byte -/
def turn (contents remaining : List UInt8) (b0 : UInt8) (s : Generator) : Checked (List UInt8 × Generator) :=
  let len := wtf8ByteSequenceLength b0
  let c := decodeFront remaining b0
  let offset := u32 (contents.length - remaining.length : Nat)
  let s := s.prepare c offset
  if s.columnsForNonAscii = [] ∧ 14 ≤ c ∧ c ≤ 127 then skipAscii remaining len s
  else
    let s := s.fillColumns offset
    if isLineBreak c then
      -- the line ends behind the second byte of a Windows line break
      if c = 0x0D ∧ remaining[1]? = some 0x0A then do return (← sliceFrom remaining 1, s.advance 1)
      else do return (← sliceFrom remaining len, s.newline)
    else do return (← sliceFrom remaining len, s.advance (if 0xFFFF < c then 2 else 1))

def read (contents : List UInt8) : Nat → List UInt8 → Generator → Checked Generator
  | _, [], s => .ok s
  | 0, _ :: _, _ => .error .fuel
  | n + 1, b0 :: rest, s => do
    let (remaining, s) ← turn contents (b0 :: rest) b0 s
    read contents n remaining s

/-- The row of the last line -/
def finish (contents : List UInt8) (s : Generator) : List LineOffsetTable :=
  let s := if s.column = 0 then {s with lineByteOffset := u32 contents.length} else s
  let need := u32 (u32 (u32 (contents.length - s.lineByteOffset) - s.columnByteOffset) + 1)
  let s :=
    if s.columnsForNonAscii = [] then s
    else {s with columnsForNonAscii := s.columnsForNonAscii ++ List.replicate need s.column}
  s.appendRow.list

end Generator

/-- `generate_in`. A turn takes at least one byte. The expected number of lines only reserves memory. -/
def generate (contents : List UInt8) : Checked (List LineOffsetTable) := do
  return Generator.finish contents (← Generator.read contents contents.length contents .init)

end LineOffsetTable

end Funbun.SourceMap
