import Funbun.Library.ArrayMap
import Funbun.SourceMap.Parse

/-! The source map of an output chunk.

The pieces of the files in it are put behind one another. Each is written from the zero state, and only its
first mapping is written anew, from the state at the end of the piece before. -/
namespace Funbun.SourceMap
open Library

structure CompileResultForSourceMap where
  sourceMapChunk : Chunk
  generatedOffset : LineColumnOffset
  sourceIndex : Nat

/-- A source that was not there gets the next index. -/
def numberSource (s : ArrayMap Nat Int × Int) (index : Nat) : ArrayMap Nat Int × Int :=
  if s.1.contains index then s else (s.1.put index s.2, i32 (s.2 + 1))

/-- The sources, each under its index in the map's own list -/
def sourceIdMap : List Nat → ArrayMap Nat Int
  | [] => .empty
  | index :: sourceIndices => (sourceIndices.foldl numberSource (ArrayMap.empty.put index 0, 1)).1

/-- `index_of_not_char`. The place is cast to a `u32`. -/
def indexOfNotChar (slice : List UInt8) (char : UInt8) : Option Nat :=
  (slice.findIdx? (· != char)).map (· % UInt32.size)

/-- The first mapping is written anew, from the end of the piece before, and the rest goes in as it is. -/
def rewriteFirst (j : List UInt8) (prevEndState startState : SourceMapState) (sourceMap : List UInt8) : List UInt8 :=
  let generatedColumn := Vlq.decode sourceMap 0
  let sourceIndex := Vlq.decode sourceMap generatedColumn.start
  let originalLine := Vlq.decode sourceMap sourceIndex.start
  let originalColumn := Vlq.decode sourceMap originalLine.start
  let startState :=
    { startState with
      sourceIndex := i32 (startState.sourceIndex + sourceIndex.value)
      generatedColumn := i32 (startState.generatedColumn + generatedColumn.value)
      originalLine := i32 (startState.originalLine + originalLine.value)
      originalColumn := i32 (startState.originalColumn + originalColumn.value) }
  j ++ appendMappingToBuffer [] (lastByte j) prevEndState startState ++ sourceMap.drop originalColumn.start

/-- `append_source_map_chunk` -/
def appendSourceMapChunk (j : List UInt8) (prevEndState startState : SourceMapState) (sourceMap : List UInt8) :
    List UInt8 :=
  -- line breaks between this mapping and the previous one
  let (j, prevEndState) :=
    if startState.generatedLine ≠ 0 then
      (j ++ List.replicate startState.generatedLine.toNat semicolon, {prevEndState with generatedColumn := 0})
    else (j, prevEndState)
  -- the piece's own line breaks in front of its first mapping
  let semicolons := (indexOfNotChar sourceMap semicolon).getD 0
  if 0 < semicolons then
    rewriteFirst (j ++ sourceMap.take semicolons) {prevEndState with generatedColumn := 0}
      {startState with generatedColumn := 0} (sourceMap.drop semicolons)
  else rewriteFirst j prevEndState startState sourceMap

structure Joiner where
  j : List UInt8
  prevEndState : SourceMapState
  prevColumnOffset : Int

def startState (mappingSourceIndex prevColumnOffset : Int) (offset : LineColumnOffset) : SourceMapState :=
  { SourceMapState.zero with
    sourceIndex := mappingSourceIndex
    generatedLine := offset.lines
    generatedColumn := if offset.lines = 0 then i32 (offset.columns + prevColumnOffset) else offset.columns }

/-- One turn of the loop. Every source has an index. -/
def Joiner.append (sourceIds : ArrayMap Nat Int) (s : Joiner) (result : CompileResultForSourceMap) : Joiner :=
  let mappingSourceIndex := (sourceIds.get? result.sourceIndex).getD 0
  let start := startState mappingSourceIndex s.prevColumnOffset result.generatedOffset
  let chunk := result.sourceMapChunk
  let endState : SourceMapState := {chunk.endState with sourceIndex := mappingSourceIndex}
  let j := appendSourceMapChunk s.j s.prevEndState start chunk.buffer
  if endState.generatedLine = 0 then
    ⟨j, {endState with generatedColumn := i32 (endState.generatedColumn + start.generatedColumn)},
      i32 (chunk.finalGeneratedColumn + start.generatedColumn)⟩
  else ⟨j, endState, chunk.finalGeneratedColumn⟩

def mappingsKey : List UInt8 := "\n  ],\n  \"mappings\": \"".toList.map Char.toUInt8

/-- `generate_source_map_for_chunk`, the part between `mapping_start` and `mapping_end` -/
def generateSourceMapForChunk (sources : List UInt8) (results : List CompileResultForSourceMap) : List UInt8 :=
  let j := sources ++ mappingsKey
  let sourceIds := sourceIdMap (results.map CompileResultForSourceMap.sourceIndex)
  ((results.foldl (Joiner.append sourceIds) ⟨j, .zero, 0⟩).j).drop j.length

/-! ### What the map should say -/

structure PieceResult where
  piece : Piece
  generatedOffset : LineColumnOffset
  sourceIndex : Nat

namespace PieceResult

def result (r : PieceResult) : CompileResultForSourceMap := ⟨r.piece.chunk, r.generatedOffset, r.sourceIndex⟩

/-- How far the code of the piece goes -/
def extent (r : PieceResult) : LineColumnOffset :=
  ⟨r.piece.chunk.endState.generatedLine, r.piece.chunk.finalGeneratedColumn⟩

def states (r : PieceResult) : List SourceMapState := SourceMapState.zero.positions r.piece.tokens

end PieceResult

def sourcesOf (results : List PieceResult) : List Nat := (sourceIdMap (results.map PieceResult.sourceIndex)).keys

/-- The mappings of all pieces, each in its place: a piece starts its offset behind the end of the one before. -/
def joined (sources : List Nat) : LineColumnOffset → List PieceResult → List SourceMapState
  | _, [] => []
  | last, r :: results =>
    let start := last.add r.generatedOffset
    r.states.map (SourceMapState.place start (sources.idxOf r.sourceIndex)) ++ joined sources (start.add r.extent) results

def LineColumnOffset.InBounds (p : LineColumnOffset) : Prop :=
  (0 ≤ p.lines ∧ p.lines < 2147483648) ∧ 0 ≤ p.columns ∧ p.columns < 2147483648

instance (p : LineColumnOffset) : Decidable p.InBounds := inferInstanceAs (Decidable (_ ∧ _))

/-- The starts and the ends of the pieces are places in a file. -/
def Fits : LineColumnOffset → List PieceResult → Prop
  | _, [] => True
  | last, r :: results =>
    let start := last.add r.generatedOffset
    r.generatedOffset.InBounds ∧ start.InBounds ∧ (start.add r.extent).InBounds ∧ Fits (start.add r.extent) results

end Funbun.SourceMap
