import Funbun.Library.ArrayMap
import Funbun.Bundler.CodeSplitting

/-! Chunks: which files go into which output file.

Every entry point that is not a style sheet gets a JavaScript chunk. With code splitting a file goes into the chunk that is
found by the file's bits; without, into the chunks of all its bits. -/
namespace Funbun.Bundler.CodeSplitting
open Library

/-- Without code splitting a byte says whether the entry point is an HTML file. -/
structure ChunkKey where
  notHtml : Option Bool
  entryBits : Finset Nat
  deriving DecidableEq

structure EntryPoint where
  sourceIndex : Nat
  entryPointId : Nat
  isEntryPoint : Bool
  deriving DecidableEq

inductive Content where
  | javascript | html
  deriving DecidableEq

structure Chunk where
  entryPoint : EntryPoint
  entryBits : Finset Nat
  content : Content
  filesWithPartsInChunk : ArraySet Nat
  hasHtmlChunk : Bool
  isBrowserChunkFromServerBuild : Bool

def Chunk.addFile (c : Chunk) (sourceIndex : Nat) : Chunk :=
  {c with filesWithPartsInChunk := c.filesWithPartsInChunk.getOrPut sourceIndex ()}

/-- `entryPointToJsChunkIdx` gives the place of an entry point's chunk among the JavaScript chunks. -/
structure Chunks where
  entryBits : Nat → Finset Nat
  jsChunks : ArrayMap ChunkKey Chunk
  htmlChunks : ArrayMap ChunkKey Chunk
  entryPointToJsChunkIdx : Nat → Option Nat

namespace Linker
variable (l : Linker)

def isBrowserFile (i : Nat) : Bool := l.couldBeBrowserTargetFromServerBuild && l.isBrowserTarget i

def chunkKey (entryBits : Nat → Finset Nat) (sourceIndex entryBit : Nat) : ChunkKey :=
  if l.codeSplitting then ⟨none, {entryBit}⟩
  else ⟨some !l.loaderIsHtml sourceIndex, entryBits sourceIndex⟩

def htmlChunk (sourceIndex entryBit : Nat) : Chunk :=
  ⟨⟨sourceIndex, entryBit, true⟩, {entryBit}, .html, .empty, false, l.isBrowserFile sourceIndex⟩

def entryChunk (sourceIndex entryBit : Nat) : Chunk :=
  ⟨⟨sourceIndex, entryBit, true⟩, {entryBit}, .javascript, .empty, l.loaderIsHtml sourceIndex, l.isBrowserFile sourceIndex⟩

/-- The chunk of one entry point. A style sheet has none here. -/
def addEntryPoint (s : Chunks) (entry : Nat × Nat) : Chunks :=
  let (sourceIndex, entryBit) := entry
  let entryBits := Function.update s.entryBits sourceIndex (insert entryBit (s.entryBits sourceIndex))
  let key := l.chunkKey entryBits sourceIndex entryBit
  let htmlChunks :=
    if l.loaderIsHtml sourceIndex then s.htmlChunks.getOrPut key (l.htmlChunk sourceIndex entryBit) else s.htmlChunks
  if l.hasCss sourceIndex then {s with entryBits, htmlChunks}
  else
    let jsChunks := s.jsChunks.put key (l.entryChunk sourceIndex entryBit)
    { entryBits, jsChunks, htmlChunks
      entryPointToJsChunkIdx := Function.update s.entryPointToJsChunkIdx entryBit (some (jsChunks.keys.idxOf key)) }

/-- The chunk that a file is in with code splitting, if there was none for its bits or there was one. -/
def sharedChunk (entryBits : Finset Nat) (sourceIndex : Nat) : Option Chunk → Chunk
  | none => ⟨⟨sourceIndex, 0, false⟩, entryBits, .javascript, .empty, false, l.isBrowserFile sourceIndex⟩
  | some c =>
    -- any file for the browser makes the whole chunk one, unless it is an entry point's
    if l.isBrowserFile sourceIndex && !c.entryPoint.isEntryPoint then {c with isBrowserChunkFromServerBuild := true}
    else c

def addToEntryPoint (s : Chunks) (sourceIndex : Nat) (jsChunks : ArrayMap ChunkKey Chunk) (entryPointId : Nat) :
    ArrayMap ChunkKey Chunk :=
  match s.entryPointToJsChunkIdx entryPointId with
  | none => jsChunks
  | some j => jsChunks.modifyAt j (·.addFile sourceIndex)

/-- A file in the chunks it has parts in. -/
def addFile (s : Chunks) (jsChunks : ArrayMap ChunkKey Chunk) (sourceIndex : Nat) : ArrayMap ChunkKey Chunk :=
  if sourceIndex ∈ l.filesLive ∧ l.hasCss sourceIndex = false then
    let entryBits := s.entryBits sourceIndex
    if l.codeSplitting then
      jsChunks.update ⟨none, entryBits⟩ fun c => (l.sharedChunk entryBits sourceIndex c).addFile sourceIndex
    else
      ((List.range l.entryPoints.length).filter (· ∈ entryBits)).foldl (addToEntryPoint s sourceIndex) jsChunks
  else jsChunks

/-- The loop over the entry points -/
def addEntryPoints (entryBits : Nat → Finset Nat) : Chunks :=
  l.entryPoints.zipIdx.foldl l.addEntryPoint ⟨entryBits, .empty, .empty, fun _ => none⟩

/-- `compute_chunks` -/
def computeChunks (entryBits : Nat → Finset Nat) : Chunks :=
  let s := l.addEntryPoints entryBits
  if 0 < s.jsChunks.entries.length then {s with jsChunks := l.reachableFiles.foldl (l.addFile s) s.jsChunks}
  else s

/-- From the graph to the chunks. -/
def link (fuel : Nat) : Option Chunks :=
  (l.markEntryPointsReachable fuel).map fun columns => l.computeChunks columns.entryBits

end Linker

end Funbun.Bundler.CodeSplitting
