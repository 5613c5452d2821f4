import Mathlib.Data.Nat.Init
import Mathlib.Data.List.Sort
import Funbun.Bundler.ChunkProofs

/-! The order of chunks.

Besides the chunks for scripts there are those for style sheets, which are found by a hash. A script's chunk knows that of
its style sheets by the place in their map; when all chunks are put in order, it gets the place there. -/
namespace Funbun.Bundler.CodeSplitting
open Library

/-- How style sheets are found and hashed. `sourceIndex?` is for an import that is a file. -/
structure StyleSheets (ι : Type) where
  cssChunking : Bool
  findImportedCssFilesInJsOrder : Nat → List Nat
  findImportedFilesInCssOrder : List Nat → List ι
  sourceIndex? : ι → Option Nat
  hash : List UInt8 → UInt64
  hashOrder : List ι → UInt64

structure CssChunk (ι : Type) where
  entryPoint : EntryPoint
  entryBits : Finset Nat
  importsInChunkInOrder : List ι
  filesWithPartsInChunk : ArraySet Nat
  hasHtmlChunk : Bool
  isBrowserChunkFromServerBuild : Bool

/-- `cssChunksOf` is `css_chunks` of the script's chunk with a key. -/
structure StyledChunks (ι : Type) extends Chunks where
  cssChunks : ArrayMap UInt64 (CssChunk ι)
  cssChunksOf : ChunkKey → List Nat

/-- A chunk in its place. A script's has the places of its style sheets' chunks. -/
inductive SortedChunk (ι : Type) where
  | javascript (chunk : Chunk) (cssChunks : List Nat)
  | html (chunk : Chunk)
  | css (chunk : CssChunk ι)

def SortedChunk.entryPoint {ι : Type} : SortedChunk ι → EntryPoint
  | javascript chunk _ | html chunk => chunk.entryPoint
  | css chunk => chunk.entryPoint

structure Sorting (ι : Type) where
  htmlChunks : ArrayMap ChunkKey Chunk
  sortedChunks : List (SortedChunk ι)
  jsChunkIndicesWithCss : List Nat

namespace Linker
variable (l : Linker)

/-! ### Keys -/

/-- A set of few bits has two masks, and other sets as many as they need. -/
def entryBitsLength : Nat := if l.entryPoints.length ≤ 127 then 16 else 8 * ((l.entryPoints.length + 63) / 64)

def bitsByte (bits : Finset Nat) (i : Nat) : UInt8 := .ofNat (Nat.ofBits fun b : Fin 8 => decide (8 * i + b ∈ bits))

/-- `bytes` of a set of entry points -/
def entryBitsBytes (bits : Finset Nat) : List UInt8 := (List.range l.entryBitsLength).map (bitsByte bits)

def keyBytes (key : ChunkKey) : List UInt8 :=
  match key.notHtml with
  | none => l.entryBitsBytes key.entryBits
  | some notHtml => notHtml.toNat.toUInt8 :: l.entryBitsBytes key.entryBits

/-! ### Chunks of style sheets -/

variable {ι : Type} (y : StyleSheets ι)

/-- An entry point, with its style sheets -/
def addStyledEntryPoint (s : StyledChunks ι) (entry : Nat × Nat) : StyledChunks ι :=
  let (sourceIndex, entryBit) := entry
  let chunks := l.addEntryPoint s.toChunks entry
  let entryBits := chunks.entryBits sourceIndex
  let cssChunk (bits : Finset Nat) (order : List ι) (files : ArraySet Nat) : CssChunk ι :=
    ⟨⟨sourceIndex, entryBit, true⟩, bits, order, files, l.loaderIsHtml sourceIndex, l.isBrowserFile sourceIndex⟩
  if l.hasCss sourceIndex then
    let order := y.findImportedFilesInCssOrder [sourceIndex]
    let hashToUse := if y.cssChunking then y.hashOrder order else y.hash (l.entryBitsBytes entryBits)
    {s with
      toChunks := chunks
      cssChunks := s.cssChunks.getOrPut hashToUse (cssChunk {entryBit} order .empty)}
  else
    let key := l.chunkKey chunks.entryBits sourceIndex entryBit
    let cssSourceIndices := y.findImportedCssFilesInJsOrder sourceIndex
    if cssSourceIndices = [] then
      {s with toChunks := chunks, cssChunksOf := Function.update s.cssChunksOf key []}
    else
      let order := y.findImportedFilesInCssOrder cssSourceIndices
      let hashToUse := y.hashOrder order
      let files := (order.filterMap y.sourceIndex?).foldl (fun files i => files.put i ()) .empty
      let cssChunks := s.cssChunks.getOrPut hashToUse (cssChunk entryBits order files)
      { toChunks := chunks, cssChunks
        cssChunksOf := Function.update s.cssChunksOf key [cssChunks.keys.idxOf hashToUse] }

def addStyledEntryPoints (entryBits : Nat → Finset Nat) : StyledChunks ι :=
  l.entryPoints.zipIdx.foldl (l.addStyledEntryPoint y) ⟨⟨entryBits, .empty, .empty, fun _ => none⟩, .empty, fun _ => []⟩

/-- The maps of `compute_chunks`, before the chunks are sorted -/
def computeStyledChunks (entryBits : Nat → Finset Nat) : StyledChunks ι :=
  let s := l.addStyledEntryPoints y entryBits
  if 0 < s.jsChunks.entries.length then {s with jsChunks := l.reachableFiles.foldl (l.addFile s.toChunks) s.jsChunks}
  else s

/-! ### Sorting -/

/-- `less_than` of two keys -/
def lessThan (jsChunks : ArrayMap ChunkKey Chunk) (a b : ChunkKey) : Bool :=
  match jsChunks.get? a with
  | none => true
  | some aChunk =>
    match jsChunks.get? b with
    | none => false
    | some bChunk =>
      let aId := aChunk.entryPoint.entryPointId
      let bId := bChunk.entryPoint.entryPointId
      -- the main entry point comes first, and so does whatever else has its id
      if aId = 0 ∧ bId ≠ 0 then true
      else if bId = 0 ∧ aId ≠ 0 then false
      else decide (l.keyBytes a < l.keyBytes b)

def sortedKeys (jsChunks : ArrayMap ChunkKey Chunk) : List ChunkKey :=
  jsChunks.keys.insertionSort fun a b => l.lessThan jsChunks b a = false

variable {l}

/-- The chunk of a key, and the HTML chunk behind it -/
def placeJsChunk (s : StyledChunks ι) (st : Sorting ι) (key : ChunkKey) : Sorting ι :=
  match s.jsChunks.get? key with
  | none => st
  | some chunk =>
    let cssChunks := s.cssChunksOf key
    let indices :=
      if 0 < cssChunks.length then st.jsChunkIndicesWithCss ++ [st.sortedChunks.length] else st.jsChunkIndicesWithCss
    let sortedChunks := st.sortedChunks ++ [.javascript chunk cssChunks]
    match st.htmlChunks.get? key with
    | none => {st with sortedChunks, jsChunkIndicesWithCss := indices}
    | some html =>
      if chunk.hasHtmlChunk then
        ⟨st.htmlChunks.swapRemove key, sortedChunks ++ [.html html], indices⟩
      else {st with sortedChunks, jsChunkIndicesWithCss := indices}

/-- `sorted_index` of one key: where the chunk is in the map, the table has where it is now. -/
def placeCssChunk (s : StyledChunks ι) (st : List (SortedChunk ι) × List Nat) (key : UInt64) :
    List (SortedChunk ι) × List Nat :=
  match s.cssChunks.get? key with
  | none => st
  | some chunk => (st.1 ++ [.css chunk], st.2.set (s.cssChunks.keys.idxOf key) st.1.length)

def remap (remappedCssIndexes : List Nat) : SortedChunk ι → SortedChunk ι
  | .javascript chunk cssChunks => .javascript chunk (cssChunks.map fun idx => remappedCssIndexes.getD idx 0)
  | .html chunk => .html chunk
  | .css chunk => .css chunk

def sortedCssKeys (s : StyledChunks ι) : List UInt64 := s.cssChunks.keys.insertionSort fun a b => a ≤ b

/-- Style sheets come behind the scripts, and the scripts' indices are changed. -/
def placeCssChunks (s : StyledChunks ι) (st : Sorting ι) : Sorting ι :=
  if 0 < s.cssChunks.entries.length then
    let placed := (sortedCssKeys s).foldl (placeCssChunk s) (st.sortedChunks, List.replicate s.cssChunks.entries.length 0)
    {st with
      sortedChunks := st.jsChunkIndicesWithCss.foldl (fun chunks i => chunks.modify i (remap placed.2)) placed.1}
  else st

variable (l)

/-- From the maps to the chunks. HTML chunks without a script's come last. -/
def sortChunks (s : StyledChunks ι) : List (SortedChunk ι) :=
  let st := (l.sortedKeys s.jsChunks).foldl (placeJsChunk s) ⟨s.htmlChunks, [], []⟩
  let st := placeCssChunks s st
  st.sortedChunks ++ st.htmlChunks.entries.map fun e => .html e.2

/-- From the graph to the maps -/
def linkStyled (fuel : Nat) : Option (StyledChunks ι) :=
  (l.markEntryPointsReachable fuel).map fun columns => l.computeStyledChunks y columns.entryBits

end Linker

end Funbun.Bundler.CodeSplitting
