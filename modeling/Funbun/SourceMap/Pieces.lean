import Funbun.Library.Checked
import Funbun.SourceMap.Chunk

/-! The pieces of a source map whose code has placeholders.

When a placeholder is replaced, what stands behind it on its line moves. A shift is a place behind a placeholder, before and
after it has been replaced. The first shift is the start of the code, where nothing has moved yet. -/
namespace Funbun.SourceMap
open Library

def LineColumnOffset.comesBefore (a b : LineColumnOffset) : Bool :=
  a.lines < b.lines || (a.lines == b.lines && a.columns < b.columns)

structure SourceMapShifts where
  before : LineColumnOffset
  after : LineColumnOffset
  deriving DecidableEq

structure SourceMapPieces where
  jsonPrefix : List UInt8
  mappings : List UInt8
  suffix : List UInt8

namespace SourceMapPieces

/-- What is known while the mappings are read. `j` is what has been joined, all up to `startOfRun`. -/
structure Finalizer where
  shifts : List SourceMapShifts
  startOfRun : Nat
  current : Nat
  generated : LineColumnOffset
  prevShiftColumnDelta : Int
  j : List UInt8

/-- The fields behind the first one, and the comma behind them -/
def skipFields (mappings : List UInt8) (current : Nat) : Nat :=
  let current := (Vlq.decode mappings current).start
  let current := (Vlq.decode mappings current).start
  let current := (Vlq.decode mappings current).start
  let current :=
    if (mappings[current]?).any fun c => c != comma && c != semicolon then (Vlq.decode mappings current).start else current
  if mappings[current]? = some comma then current + 1 else current

namespace Finalizer

def newline (s : Finalizer) : Finalizer :=
  { s with
    generated := ⟨i32 (s.generated.lines + 1), 0⟩
    prevShiftColumnDelta := 0
    current := s.current + 1 }

/-- `shifts[1..]` if the next shift comes before a place -/
def cross (shifts : List SourceMapShifts) (generated : LineColumnOffset) : Option (SourceMapShifts × List SourceMapShifts) :=
  match shifts with
  | _ :: shift :: shifts => if shift.before.comesBefore generated then some (shift, shift :: shifts) else none
  | _ => none

def segment (mappings : List UInt8) (s : Finalizer) : Finalizer :=
  let decodeResult := Vlq.decode mappings s.current
  let generated := {s.generated with columns := i32 (s.generated.columns + decodeResult.value)}
  let current := skipFields mappings decodeResult.start
  match cross s.shifts generated with
  | none => {s with generated, current}
  | some (shift, shifts) =>
    if shift.after.lines ≠ generated.lines then {s with shifts, generated, current}
    else
      let shiftColumnDelta := i32 (shift.after.columns - shift.before.columns)
      let run := (mappings.take s.current).drop s.startOfRun
      let vlqValue := i32 (i32 (decodeResult.value + shiftColumnDelta) - s.prevShiftColumnDelta)
      ⟨shifts, decodeResult.start, current, generated, shiftColumnDelta, s.j ++ run ++ Vlq.encode vlqValue⟩

def loop (mappings : List UInt8) : Nat → Finalizer → Checked Finalizer
  | 0, s => if s.current < mappings.length then .error .fuel else .ok s
  | n + 1, s =>
    match mappings[s.current]? with
    | none => .ok s
    | some byte => loop mappings n (if byte = semicolon then s.newline else s.segment mappings)

end Finalizer

/-- A turn takes at least one byte, if the mappings are well formed. -/
def finalize (pieces : SourceMapPieces) (shifts : List SourceMapShifts) : Checked (List UInt8) := do
  -- nothing to splice
  if pieces.mappings = [] ∧ pieces.suffix = [] then return pieces.jsonPrefix
  else
    let s ← Finalizer.loop pieces.mappings pieces.mappings.length ⟨shifts, 0, 0, ⟨0, 0⟩, 0, pieces.jsonPrefix⟩
    return s.j ++ pieces.mappings.drop s.startOfRun ++ pieces.suffix

end SourceMapPieces
end Funbun.SourceMap
