import Funbun.Bundler.Chunks
import Mathlib.Data.List.Sort

/-! The order of the files and parts of a JavaScript chunk.

Files are walked from the runtime and from the files of the chunk, those closest to an entry point first. A part comes after
the files that it imports. A wrapped file is not split. -/
namespace Funbun.Bundler.PartOrder
open Library TreeShaking CodeSplitting

def runtime : Nat := 0

def namespaceExportPartIndex : Nat := 0

/-- A statement of a part, as far as it is looked at. -/
inductive Stmt where
  | sImport (importRecordIndex : Nat)
  | other
  deriving DecidableEq

structure PartRange where
  sourceIndex : Nat
  partIndexBegin : Nat
  partIndexEnd : Nat
  begin_le_end : partIndexBegin ≤ partIndexEnd
  deriving DecidableEq

def PartRange.single (sourceIndex partIndex : Nat) : PartRange := ⟨sourceIndex, partIndex, partIndex + 1, Nat.le_succ _⟩

def PartRange.whole (sourceIndex length : Nat) : PartRange := ⟨sourceIndex, 0, length, Nat.zero_le _⟩

def PartRange.extend (r : PartRange) : PartRange :=
  ⟨r.sourceIndex, r.partIndexBegin, r.partIndexEnd + 1, Nat.le_succ_of_le r.begin_le_end⟩

/-- The linker behind `compute_chunks`. -/
structure Context where
  linker : Linker
  columns : Columns
  columns_marked : ∃ fuel, linker.graph.files.length < fuel ∧ linker.markEntryPointsReachable fuel = some columns
  partsLive : Finset Dependency
  stmts : Dependency → List Stmt
  stableSourceIndices : Nat → Nat
  isScb : Finset Nat
  partsLive_valid : ∀ d ∈ partsLive, ∃ f, linker.graph.files[d.sourceIndex]? = some f ∧ d.partIndex < f.parts.length

/-- `FindImportedPartsVisitor`, with the column that it writes -/
structure Visitor where
  visited : Finset Nat
  files : List Nat
  partRanges : List PartRange
  partsPrefix : List PartRange
  entryPointChunkIndex : Nat → Nat

def appendOrExtendRange (ranges : List PartRange) (sourceIndex partIndex : Nat) : List PartRange :=
  match ranges.getLast? with
  | some last =>
    if last.sourceIndex = sourceIndex ∧ last.partIndexEnd = partIndex then
      ranges.dropLast ++ [last.extend]
    else ranges ++ [.single sourceIndex partIndex]
  | none => ranges ++ [.single sourceIndex partIndex]

structure Order where
  sourceIndex : Nat
  distance : Nat
  tieBreaker : Nat

def Order.lessThan (a b : Order) : Bool :=
  a.distance < b.distance || (a.distance == b.distance && a.tieBreaker < b.tieBreaker)

/-- No two files have the same stable index, so a sort that is not stable gives the same. -/
def Order.sort (orders : List Order) : List Order := orders.insertionSort fun a b => b.lessThan a = false

namespace Context
variable (x : Context)

def parts (i : Nat) : List Part := (x.linker.graph.files[i]?.map File.parts).getD []

def importRecords (i : Nat) : List ImportRecord := (x.linker.graph.files[i]?.map File.importRecords).getD []

def wrap (i : Nat) : WrapKind := (x.linker.graph.files[i]?.map File.wrap).getD .none

/-- Wrapped files are in one piece, inside the wrapper. -/
def canBeSplit (i : Nat) : Bool := x.wrap i == .none

/-- A part that is one import of a bundled file without wrapper is left out. -/
def shouldIncludePart (i partIndex : Nat) : Bool :=
  match x.stmts ⟨i, partIndex⟩ with
  | [.sImport importRecordIndex] =>
    match (x.importRecords i)[importRecordIndex]?.bind ImportRecord.sourceIndex with
    | some other => x.wrap other != .none
    | none => true
  | _ => true

def isFileInChunk (entryBits : Finset Nat) (i : Nat) : Bool :=
  if x.linker.codeSplitting && !x.linker.hasCss i then entryBits == x.columns.entryBits i
  else !(entryBits ∩ x.columns.entryBits i == ∅)

def isPartInThisChunk (entryBits : Finset Nat) (i partIndex : Nat) : Bool :=
  x.isFileInChunk entryBits i && decide (⟨i, partIndex⟩ ∈ x.partsLive)

section Visit
variable (entryBits : Finset Nat) (chunkIndex : Nat)

/-- The part that exports the namespace is the first of its file, before all imports. -/
def includeNamespace (i : Nat) (s : Visitor) : Visitor :=
  if x.canBeSplit i && x.isPartInThisChunk entryBits i namespaceExportPartIndex then
    {s with partRanges := appendOrExtendRange s.partRanges i namespaceExportPartIndex}
  else s

def includePart (i partIndex : Nat) (s : Visitor) : Visitor :=
  if x.isPartInThisChunk entryBits i partIndex && x.canBeSplit i && partIndex != namespaceExportPartIndex &&
      x.shouldIncludePart i partIndex then
    if i = runtime then {s with partsPrefix := appendOrExtendRange s.partsPrefix i partIndex}
    else {s with partRanges := appendOrExtendRange s.partRanges i partIndex}
  else s

def finish (i : Nat) (s : Visitor) : Visitor :=
  if x.isFileInChunk entryBits i then
    { visited := s.visited
      files := s.files ++ [i]
      partRanges := s.partRanges
      partsPrefix := if x.canBeSplit i then s.partsPrefix else s.partsPrefix ++ [.whole i (x.parts i).length]
      entryPointChunkIndex :=
        if i ∈ x.isScb then Function.update s.entryPointChunkIndex i chunkIndex else s.entryPointChunkIndex }
  else s

/-- Import statements are followed from parts that are not in the chunk, too. -/
def visitRecord (visit : Nat → Visitor → Option Visitor) (i partIndex : Nat) (s : Visitor) (recordId : Nat) :
    Option Visitor :=
  match (x.importRecords i)[recordId]? with
  | none => some s
  | some record =>
    match record.sourceIndex with
    | none => some s
    | some other =>
      if record.kind = .stmt ∨ x.isPartInThisChunk entryBits i partIndex = true then
        if x.linker.isExternalDynamicImport record other i then some s else visit other s
      else some s

def visitPart (visit : Nat → Visitor → Option Visitor) (i : Nat) (s : Visitor) (partIndex : Nat) : Option Visitor :=
  (((x.parts i)[partIndex]?.map Part.importRecordIndices).getD [] |>.foldlM (x.visitRecord entryBits visit i partIndex) s).map
    (x.includePart entryBits i partIndex)

/-- `visit` -/
def visit : Nat → Nat → Visitor → Option Visitor
  | 0, _, _ => none
  | fuel + 1, i, s =>
    if i ∈ s.visited then some s
    else
      let s := x.includeNamespace entryBits i {s with visited := insert i s.visited}
      ((List.range (x.parts i).length).foldlM (x.visitPart entryBits (visit fuel) i) s).map (x.finish entryBits chunkIndex i)

end Visit

/-- `compute_chunks` -/
def jsChunks : ArrayMap ChunkKey Chunk := (x.linker.computeChunks x.columns.entryBits).jsChunks

def chunkOrderArray (c : Chunk) : List Order :=
  Order.sort (c.filesWithPartsInChunk.keys.map fun i => ⟨i, x.columns.distances i, x.stableSourceIndices i⟩)

/-- `find_imported_parts_in_js_order` -/
def findImportedPartsInJSOrder (entryPointChunkIndex : Nat → Nat) (c : Chunk) (chunkIndex fuel : Nat) : Option Visitor :=
  (runtime :: (x.chunkOrderArray c).map Order.sourceIndex).foldlM (fun s i => x.visit c.entryBits chunkIndex fuel i s)
    ⟨∅, [], [], [], entryPointChunkIndex⟩

end Context

/-- `parts_in_chunk_in_order` -/
def Visitor.partsInChunkOrder (s : Visitor) : List PartRange := s.partsPrefix ++ s.partRanges

end Funbun.Bundler.PartOrder
