import Funbun.SourceMap.Chunk
import Funbun.SourceMap.Internal

/-! A mappings text turned into an in-memory source map, and back. -/
namespace Funbun.SourceMap.Internal
open Library

/-! ### From a text -/

inductive FromVlqError where
  | invalidSourceMap
  deriving DecidableEq

/-- An absolute value that is no `i32`, or is negative, is an error. -/
def accumulate (absolute delta : Int) : Except FromVlqError Int :=
  if -2147483648 ≤ absolute + delta ∧ absolute + delta ≤ 2147483647 ∧ 0 ≤ absolute + delta then .ok (absolute + delta)
  else .error .invalidSourceMap

structure VlqReader where
  builder : Builder
  generatedColumn : Int
  sourceIndex : Int
  originalLine : Int
  originalColumn : Int
  maxOriginalLine : Int

namespace VlqReader

def init : VlqReader := ⟨.init, 0, 0, 0, 0, 0⟩

/-- The number at the front, added to an absolute value, and what stands behind it -/
def number (remain : List UInt8) (absolute : Int) : Except FromVlqError (Int × List UInt8) :=
  let delta := Vlq.decode remain 0
  if delta.start = 0 then .error .invalidSourceMap
  else do
    let value ← accumulate absolute delta.value
    return (value, remain.drop delta.start)

def separators : List UInt8 → Builder → List UInt8 × Builder
  | [], b => ([], b)
  | byte :: remain, b => if byte = semicolon then separators remain b.appendLineSeparator else (byte :: remain, b)

/-- The line breaks in front of a mapping -/
def lines (remain : List UInt8) (r : VlqReader) : List UInt8 × VlqReader :=
  if remain.head? = some semicolon then
    let (remain, builder) := separators remain r.builder
    (remain, {r with builder, generatedColumn := 0})
  else (remain, r)

/-- `remain[1..]` at a comma -/
def skipComma (remain : List UInt8) : List UInt8 := if remain.head? = some comma then remain.tail else remain

/-- The index of a name is read and dropped. -/
def name (remain : List UInt8) : Except FromVlqError (List UInt8) :=
  if remain = [] ∨ remain.head? = some comma ∨ remain.head? = some semicolon then .ok remain
  else
    let index := Vlq.decode remain 0
    if index.start = 0 then .error .invalidSourceMap else .ok (remain.drop index.start)

/-- The fields behind the generated column -/
def original (remain : List UInt8) (r : VlqReader) : Except FromVlqError (List UInt8 × VlqReader) := do
  let (sourceIndex, remain) ← number remain r.sourceIndex
  let (originalLine, remain) ← number remain r.originalLine
  let (originalColumn, remain) ← number remain r.originalColumn
  let remain ← name remain
  return (skipComma remain,
    { r with
      sourceIndex, originalLine, originalColumn
      maxOriginalLine := max r.maxOriginalLine originalLine
      builder := r.builder.appendMapping ⟨0, r.generatedColumn, sourceIndex, originalLine, originalColumn⟩ })

def mapping (remain : List UInt8) (r : VlqReader) : Except FromVlqError (List UInt8 × VlqReader) := do
  let (generatedColumn, remain) ← number remain r.generatedColumn
  let r := {r with generatedColumn}
  if remain = [] ∨ remain.head? = some comma ∨ remain.head? = some semicolon then return (skipComma remain, r)
  else original remain r

/-- A turn takes at least one byte. -/
def read : Nat → List UInt8 → VlqReader → Except FromVlqError VlqReader
  | 0, _, r => .ok r
  | n + 1, remain, r =>
    let (remain, r) := r.lines remain
    if remain = [] then .ok r
    else do
      let (remain, r) ← mapping remain r
      read n remain r

end VlqReader

/-- `from_vlq`. There is no blob where `finalize` panics. -/
def fromVlq (vlq : List UInt8) (inputLineCountHint : Nat) : Except FromVlqError (Option (List UInt8)) := do
  let r ← VlqReader.read (vlq.length + 1) vlq .init
  let inputLines := max inputLineCountHint (r.maxOriginalLine.toNat + 1)
  return r.builder.finalize.map fun blob => generateChunk blob r.builder.count inputLines

/-! ### To a text -/

structure Emitter where
  out : List UInt8
  prev : SourceMapState
  generatedLine : Int

/-- `emit_vlq` -/
def Emitter.emit (s : Emitter) (state : SourceMapState) : Emitter :=
  let newlines := (state.generatedLine - s.generatedLine).toNat
  let out := s.out ++ List.replicate newlines semicolon
  let prev := if newlines = 0 then s.prev else {s.prev with generatedColumn := 0}
  ⟨appendMappingToBuffer out (lastByte out) prev state, state, s.generatedLine + newlines⟩

def appendVlqTo (blob out : List UInt8) : List UInt8 := ((decodeWindows blob).foldl Emitter.emit ⟨out, .zero, 0⟩).out

end Funbun.SourceMap.Internal
