import Mathlib.Data.Finset.Insert
import Funbun.Library.Bytes

/-! The hashes in the names of chunks.

The name of a chunk has a hash of all chunks that it leads to, by imports or by pieces of its output. Each is mixed in once,
when what it leads to is, and the map of visited chunks is used again for the next start. -/
namespace Funbun.Bundler.ChunkHashes
open Library

inductive QueryKind where
  | none | asset | chunk | scb | htmlImport
  deriving DecidableEq

structure Query where
  kind : QueryKind
  index : Nat

inductive IntermediateOutput where
  | pieces (queries : List Query)
  | joiner
  | empty

structure Chunk where
  /-- `chunk_index` of each import -/
  crossChunkImports : List Nat
  intermediateOutput : IntermediateOutput
  isolatedHash : UInt64
  finalRelPath : List UInt8

def Chunk.pieceQueries (c : Chunk) : List Query :=
  match c.intermediateOutput with
  | .pieces queries => queries
  | .joiner | .empty => []

inductive AdditionalFile where
  | outputFile (id : Nat)
  | sourceIndex (index : Nat)

/-- A slice has `isize::MAX` bytes at most. -/
abbrev Slice := {bytes : List UInt8 // bytes.length < 2 ^ 63}

structure Linker where
  /-- By source index -/
  entryPointChunkIndex : List Nat
  /-- By source index -/
  additionalFiles : List (List AdditionalFile)
  /-- `dest_path` of the additional output files -/
  destPaths : List (List UInt8)
  dirname : List UInt8 → List UInt8
  relative : List UInt8 → List UInt8 → Slice

/-- What is mixed in, and which chunk it is of -/
inductive Write where
  | assetPath (path : Slice)
  | isolatedHash (index : Nat) (hash : UInt64)

def Write.bytes : Write → List UInt8
  | assetPath path => path.1
  | isolatedHash _ hash => leBytes 8 hash.toNat

def Write.index? : Write → Option Nat
  | assetPath _ => none
  | isolatedHash index _ => some index

/-- `ContentHasher`: every write is behind its length. -/
def stream (writes : List Write) : List UInt8 := writes.flatMap fun w => leBytes 8 w.bytes.length ++ w.bytes

structure Walk where
  hash : List Write
  chunkVisitMap : Finset Nat

namespace Linker
variable (l : Linker)

/-- The path of an asset, as seen from the chunk. An index that is out of range panics. -/
def assetWrite (c : Chunk) (sourceIndex : Nat) (st : Walk) : Option Walk := do
  let fromChunkDir := if l.dirname c.finalRelPath = [46] then [] else l.dirname c.finalRelPath
  let additionalFiles ← l.additionalFiles[sourceIndex]?
  match ← additionalFiles.head? with
  | .outputFile id =>
    let path ← l.destPaths[id]?
    some {st with hash := st.hash ++ [.assetPath (l.relative fromChunkDir path)]}
  | .sourceIndex _ => some st

/-- One piece, where `visit` is the call for another chunk -/
def visitPiece (visit : Nat → Walk → Option Walk) (c : Chunk) (st : Walk) (query : Query) : Option Walk :=
  match query.kind with
  | .asset => l.assetWrite c query.index st
  | .chunk => visit query.index st
  | .scb => do visit (← l.entryPointChunkIndex[query.index]?) st
  | .none | .htmlImport => some st

def appendIsolatedHashesForImportedChunks (chunks : List Chunk) : Nat → Nat → Walk → Option Walk
  | 0, _, _ => none
  | fuel + 1, index, st =>
    if index ∈ st.chunkVisitMap then some st
    else do
      let c ← chunks[index]?
      let visit := appendIsolatedHashesForImportedChunks chunks fuel
      let st ← c.crossChunkImports.foldlM (fun st chunkIndex => visit chunkIndex st)
        {st with chunkVisitMap := insert index st.chunkVisitMap}
      let st ← c.pieceQueries.foldlM (l.visitPiece visit c) st
      some {st with hash := st.hash ++ [.isolatedHash index c.isolatedHash]}

/-- `hashed` is what was mixed in for each chunk. -/
structure Naming where
  chunks : List Chunk
  chunkVisitMap : Finset Nat
  pathNames : List (List UInt8)
  hashed : List (List Write)

section Names
variable (digest : List UInt8 → UInt64) (print : Nat → UInt64 → List UInt8)

/-- One turn of the loop. A path that another chunk has is not set. `print` is the template of the chunk. -/
def nameChunk (fuel : Nat) (st : Naming) (index : Nat) : Option Naming := do
  let walk ← l.appendIsolatedHashesForImportedChunks st.chunks fuel index ⟨[], st.chunkVisitMap⟩
  let relPath := print index (digest (stream walk.hash))
  let st := {st with chunkVisitMap := ∅, hashed := st.hashed ++ [walk.hash]}
  if st.pathNames.contains relPath then some st
  else
    some {st with
      chunks := st.chunks.modify index ({· with finalRelPath := relPath})
      pathNames := relPath :: st.pathNames}

/-- The loop of `generate_chunks_in_parallel` over all chunks -/
def nameChunks (fuel : Nat) (chunks : List Chunk) : Option Naming :=
  (List.range chunks.length).foldlM (l.nameChunk digest print fuel) ⟨chunks, ∅, [], []⟩

end Names

end Linker

end Funbun.Bundler.ChunkHashes
