import Mathlib.Data.List.Sort
import Funbun.Bundler.ExportRenamer

/-! Bindings between chunks.

`walk` notes for each chunk the symbols it uses and for each symbol the chunk it is declared in. A pass over the chunks then
matches the two, a second one names what each chunk exports, and a third one writes the import statements. -/
namespace Funbun.Bundler.CrossChunk
open Library

abbrev SourceIndex := Nat

structure Ref where
  sourceIndex : SourceIndex
  innerIndex : Nat
  deriving DecidableEq

/-! ### The linked files -/

inductive ImportItemStatus where
  | none | generated | missing
  deriving DecidableEq

/-- `namespaceAlias` is set for an import from a CommonJS file. -/
structure Symbol where
  originalName : Name
  isUnbound : Bool
  importItemStatus : ImportItemStatus
  namespaceAlias : Option Ref

inductive ImportKind where
  | entryPointRun | entryPointBuild | stmt | require | dynamic | requireResolve | at | atConditional
  | url | composes | htmlManifest | internal
  deriving DecidableEq

structure ImportRecord where
  kind : ImportKind
  sourceIndex : Option SourceIndex
  path : Name

structure DeclaredSymbol where
  ref : Ref
  isTopLevel : Bool

structure Part where
  importRecordIndices : List Nat
  declaredSymbols : List DeclaredSymbol
  symbolUses : List Ref

inductive WrapKind where
  | none | cjs | esm
  deriving DecidableEq

structure Flags where
  wrap : WrapKind
  forceIncludeExportsForEntryPoint : Bool

/-- What an export of a file leads to. -/
structure ExportData where
  sourceIndex : SourceIndex
  importRef : Ref

inductive Format where
  | esm | iife | cjs | internalBakeDev
  deriving DecidableEq

inductive Content where
  | javascript | css | html
  deriving DecidableEq

structure EntryPoint where
  sourceIndex : SourceIndex
  entryPointId : Nat
  isEntryPoint : Bool

/-- A chunk as `compute_chunks` leaves it. -/
structure Chunk where
  content : Content
  filesWithPartsInChunk : List SourceIndex
  entryBits : Nat → Bool
  entryPoint : EntryPoint
  uniqueKey : Name

/-- The state of the linker before the chunks are bound to each other. Columns that go
by file are functions of the source index. `display` is how a name is written into
another one (invalid text is replaced).

A file's parts declare symbols of that file and its wrapper is a plain symbol of it;
with code splitting every file is in one chunk. -/
structure Linker where
  codeSplitting : Bool
  outputFormat : Format
  minifyIdentifiers : Bool
  symbols : Ref → Symbol
  parts : SourceIndex → List Part
  partsLive : SourceIndex → Nat → Bool
  importRecords : SourceIndex → List ImportRecord
  importsToBind : SourceIndex → Ref → Option Ref
  flags : SourceIndex → Flags
  wrapperRefs : SourceIndex → Ref
  exportsRefs : SourceIndex → Ref
  isEntryPoint : SourceIndex → Bool
  entryPointChunkIndices : SourceIndex → Nat
  sortedAndFilteredExportAliases : SourceIndex → List Name
  resolvedExports : SourceIndex → Name → Option ExportData
  stableSourceIndices : SourceIndex → Nat
  chunks : List Chunk
  display : Name → Name
  declared_own : ∀ file, ∀ part ∈ parts file, ∀ d ∈ part.declaredSymbols, d.ref.sourceIndex = file
  wrapper_own : ∀ file, (flags file).wrap = .cjs →
    (wrapperRefs file).sourceIndex = file ∧ (symbols (wrapperRefs file)).namespaceAlias = none
  file_chunk : codeSplitting = true → ∀ (i j : Nat) (c d : Chunk), chunks[i]? = some c → chunks[j]? = some d →
    c.content = .javascript → d.content = .javascript →
    ∀ file ∈ c.filesWithPartsInChunk, file ∈ d.filesWithPartsInChunk → i = j

/-! ### Walking a chunk -/

structure ChunkMeta where
  imports : ArraySet Ref
  exports : ArraySet Ref
  dynamicImports : ArraySet Nat

/-- `importRecords` and `chunkIndex` (the chunk a symbol is declared in) are shared by the
walks, `chunkMeta` belongs to the chunk. -/
structure Walk where
  importRecords : SourceIndex → List ImportRecord
  chunkIndex : Ref → Option Nat
  chunkMeta : ChunkMeta

section Walk
variable (l : Linker) (chunkIndex : Nat)

/-- Records that are not bound to a file are never asked about. -/
def isExternalDynamicImport (record : ImportRecord) (target file : SourceIndex) : Bool :=
  l.codeSplitting && record.kind == .dynamic && l.isEntryPoint target && target != file

/-- An external dynamic import points to the chunk of its entry point. -/
def walkImportRecord (file : SourceIndex) (s : Walk) (id : Nat) : Walk :=
  match (s.importRecords file)[id]? with
  | none => s
  | some record =>
    match record.sourceIndex with
    | none => s
    | some target =>
      if isExternalDynamicImport l record target file then
        let otherChunkIndex := l.entryPointChunkIndices target
        let uniqueKey := ((l.chunks[otherChunkIndex]?).map (·.uniqueKey)).getD []
        let record := {record with path := uniqueKey, sourceIndex := none}
        {s with
          importRecords := Function.update s.importRecords file ((s.importRecords file).set id record)
          chunkMeta := if otherChunkIndex = chunkIndex then s.chunkMeta
            else {s.chunkMeta with dynamicImports := s.chunkMeta.dynamicImports.put otherChunkIndex ()}}
      else s

/-- `Map::assign_chunk_index` -/
def assignChunkIndex (s : Walk) (declared : List DeclaredSymbol) : Walk :=
  let assign := fun (chunks : Ref → Option Nat) (d : DeclaredSymbol) =>
    if d.isTopLevel then Function.update chunks d.ref (some chunkIndex) else chunks
  {s with chunkIndex := declared.foldl assign s.chunkIndex}

/-- An import from a CommonJS file is a property of the namespace it came with. -/
def throughNamespaceAlias (ref : Ref) : Ref := (l.symbols ref).namespaceAlias.getD ref

/-- The symbol a use stands for, unless the use is ignored. -/
def refToUse (file : SourceIndex) (ref : Ref) : Option Ref :=
  let symbol := l.symbols ref
  if symbol.isUnbound then none
  -- this is going to be replaced by undefined
  else if symbol.importItemStatus == .missing then none
  else
    match l.importsToBind file ref with
    | some importRef => some (throughNamespaceAlias l importRef)
    | none =>
      if (l.flags file).wrap == .cjs && ref == l.wrapperRefs file then none
      else some (throughNamespaceAlias l ref)

def putImport (s : Walk) (ref : Ref) : Walk :=
  {s with chunkMeta := {s.chunkMeta with imports := s.chunkMeta.imports.put ref ()}}

def walkPart (file : SourceIndex) (s : Walk) (part : Part) : Walk :=
  let s := part.importRecordIndices.foldl (walkImportRecord l chunkIndex file) s
  let s := assignChunkIndex chunkIndex s part.declaredSymbols
  (part.symbolUses.filterMap (refToUse l file)).foldl putImport s

/-- The parts of a file that are live. -/
def liveParts (file : SourceIndex) : List Part :=
  (l.parts file).zipIdx.filterMap fun p => if l.partsLive file p.2 then some p.1 else none

def walkFile (s : Walk) (file : SourceIndex) : Walk :=
  (liveParts l file).foldl (walkPart l chunkIndex file) s

/-- The symbol an export of the entry point leads to. -/
def exportTarget (exported : ExportData) : Ref :=
  throughNamespaceAlias l ((l.importsToBind exported.sourceIndex exported.importRef).getD exported.importRef)

/-- What the entry point of a chunk makes it use. -/
def entryPointRefs (file : SourceIndex) : List Ref :=
  (if (l.flags file).wrap = .cjs then []
    else (l.sortedAndFilteredExportAliases file).filterMap fun name =>
      (l.resolvedExports file name).map (exportTarget l)) ++
  (if (l.flags file).forceIncludeExportsForEntryPoint then [l.exportsRefs file] else []) ++
  (if (l.flags file).wrap = .none then [] else [l.wrapperRefs file])

/-- `CrossChunkDependencies::walk` -/
def walk (s : Walk) (chunk : Chunk) : Walk :=
  if chunk.content = .javascript then
    let s := chunk.filesWithPartsInChunk.foldl (walkFile l chunkIndex) s
    if chunk.entryPoint.isEntryPoint then (entryPointRefs l chunk.entryPoint.sourceIndex).foldl putImport s
    else s
  else s

end Walk

/-- The walks over the chunks from `chunkIndex` on. -/
def walkChunks (l : Linker) (chunkIndex : Nat) (s : Walk) : List Chunk → Walk × List ChunkMeta
  | [] => (s, [])
  | chunk :: chunks =>
    let s := walk l chunkIndex {s with chunkMeta := ⟨.empty, .empty, .empty⟩} chunk
    let (s', metas) := walkChunks l (chunkIndex + 1) s chunks
    (s', s.chunkMeta :: metas)

/-! ### What a chunk imports and exports -/

structure CrossChunkImportItem where
  exportAlias : Name
  ref : Ref

structure CrossChunkImport where
  chunkIndex : Nat
  sortedImportItems : List CrossChunkImportItem

structure ChunkImport where
  importKind : ImportKind
  chunkIndex : Nat
  deriving DecidableEq

structure ClauseItem where
  ref : Ref
  aliasName : Name

/-- `import {items} from ...`, by its index among the chunk's imports. -/
structure ImportStmt where
  items : List ClauseItem
  importRecordIndex : Nat

/-- `export {items}` -/
structure ExportClause where
  items : List ClauseItem

/-- The fields of a chunk that bind it to others. -/
structure ChunkLinks where
  importsFromOtherChunks : ArrayMap Nat (List CrossChunkImportItem)
  exportsToOtherChunks : ArrayMap Ref Name
  crossChunkImports : List ChunkImport
  crossChunkPrefixStmts : List ImportStmt
  crossChunkSuffixStmts : List ExportClause

def ChunkLinks.none : ChunkLinks := ⟨.empty, .empty, [], [], []⟩

structure Linking where
  links : List ChunkLinks
  metas : List ChunkMeta

section Link
variable (l : Linker)

def isJavaScript (chunkIndex : Nat) : Bool :=
  ((l.chunks[chunkIndex]?).map (·.content == .javascript)).getD false

/-- Marks a symbol as exported from the chunk it is declared in. -/
def importRef (declaredIn : Ref → Option Nat) (chunkIndex : Nat) (s : Linking) (ref : Ref) : Linking :=
  match declaredIn ref with
  -- uses that aren't top-level symbols
  | none => s
  | some otherChunkIndex =>
    if otherChunkIndex = chunkIndex then s
    else
      { links := s.links.modify chunkIndex fun c => {c with
          importsFromOtherChunks := c.importsFromOtherChunks.update otherChunkIndex
            fun items => items.getD [] ++ [⟨[], ref⟩]}
        metas := s.metas.modify otherChunkIndex fun m => {m with exports := m.exports.getOrPut ref ()} }

/-- An entry point imports all chunks that belong to it, even if there are no imports. -/
def importEntryChunk (chunkIndex : Nat) (entryPointId : Nat) (s : Linking) (otherChunkIndex : Nat) : Linking :=
  if otherChunkIndex = chunkIndex || !isJavaScript l otherChunkIndex then s
  else if ((l.chunks[otherChunkIndex]?).map (·.entryBits entryPointId)).getD false then
    {s with links := s.links.modify chunkIndex fun c => {c with
      importsFromOtherChunks := c.importsFromOtherChunks.getOrPut otherChunkIndex []}}
  else s

/-- The imports of one chunk. -/
def linkImports (declaredIn : Ref → Option Nat) (s : Linking) (chunkIndex : Nat) : Linking :=
  match l.chunks[chunkIndex]?, s.metas[chunkIndex]? with
  | some chunk, some chunkMeta =>
    if chunk.content = .javascript then
      let s := chunkMeta.imports.keys.foldl (importRef declaredIn chunkIndex) s
      let s := if chunk.entryPoint.isEntryPoint then
          (List.range l.chunks.length).foldl (importEntryChunk l chunkIndex chunk.entryPoint.entryPointId) s
        else s
      {s with links := s.links.modify chunkIndex fun c => {c with
        crossChunkImports := c.crossChunkImports ++
          (chunkMeta.dynamicImports.keys.insertionSort (· ≤ ·)).map (⟨.dynamic, ·⟩)}}
    else s
  | _, _ => s

/-! ### Naming the exports -/

/-- `StableRef::is_less_than` -/
def stableLess (a b : Ref) : Bool :=
  decide (l.stableSourceIndices a.sourceIndex < l.stableSourceIndices b.sourceIndex) ||
    decide (l.stableSourceIndices a.sourceIndex = l.stableSourceIndices b.sourceIndex) &&
      decide (a.innerIndex < b.innerIndex)

def sortedCrossChunkExportItems (exports : ArraySet Ref) : List Ref :=
  exports.keys.insertionSort fun a b => stableLess l b a = false

/-- The alias of one symbol. -/
def nextName (r : ExportRenamer) (ref : Ref) : Option (ExportRenamer × Name) :=
  if l.minifyIdentifiers then some r.nextMinifiedName
  else r.nextRenamedName l.display (l.symbols ref).originalName

def clauseItems (r : ExportRenamer) : List Ref → Option (ExportRenamer × List ClauseItem)
  | [] => some (r, [])
  | ref :: refs => do
    let (r, name) ← nextName l r ref
    let (r, items) ← clauseItems r refs
    some (r, ⟨ref, name⟩ :: items)

/-- The exports of one chunk. -/
def linkExports (metas : List ChunkMeta) (s : ExportRenamer × List ChunkLinks) (chunkIndex : Nat) :
    Option (ExportRenamer × List ChunkLinks) :=
  match isJavaScript l chunkIndex, l.outputFormat, metas[chunkIndex]? with
  | true, .esm, some chunkMeta => do
    let (r, items) ← clauseItems l s.1.clearRetainingCapacity (sortedCrossChunkExportItems l chunkMeta.exports)
    some (r, s.2.modify chunkIndex fun c => {c with
      exportsToOtherChunks := items.foldl (fun m item => m.put item.ref item.aliasName) c.exportsToOtherChunks
      crossChunkSuffixStmts := if items.length = 0 then c.crossChunkSuffixStmts else [⟨items⟩]})
  | _, _, _ => some s

/-! ### Writing the imports -/

/-- The items imported from one chunk get the aliases that chunk exports them under. It is
an error to import from a chunk that is not JavaScript, or what a chunk does not export. -/
def aliasItems (links : List ChunkLinks) (chunkIndex : Nat) (items : List CrossChunkImportItem) :
    Option (List CrossChunkImportItem) := do
  let other ← if isJavaScript l chunkIndex then links[chunkIndex]? else none
  let items ← items.mapM fun item =>
    (other.exportsToOtherChunks.get? item.ref).map fun name => {item with exportAlias := name}
  some (items.insertionSort fun a b => ¬ b.exportAlias < a.exportAlias)

/-- `CrossChunkImport::sorted_cross_chunk_imports` -/
def sortedCrossChunkImports (imports : ArrayMap Nat (List CrossChunkImportItem)) : List CrossChunkImport :=
  (imports.entries.map fun e => ⟨e.1, e.2⟩).insertionSort fun a b => a.chunkIndex ≤ b.chunkIndex

/-- One import statement. -/
def pushImport (c : ChunkLinks) (crossChunkImport : CrossChunkImport) : ChunkLinks :=
  match l.outputFormat with
  | .esm => {c with
      crossChunkPrefixStmts := c.crossChunkPrefixStmts ++
        [⟨crossChunkImport.sortedImportItems.map fun item => ⟨item.ref, item.exportAlias⟩,
          c.crossChunkImports.length⟩]
      crossChunkImports := c.crossChunkImports ++ [⟨.stmt, crossChunkImport.chunkIndex⟩]}
  | _ => c

/-- The import statements of one chunk. -/
def writeImports (links : List ChunkLinks) (chunkIndex : Nat) : Option (List ChunkLinks) :=
  match isJavaScript l chunkIndex, links[chunkIndex]? with
  | true, some c => do
    let imports ← c.importsFromOtherChunks.traverse (aliasItems l links)
    let c := (sortedCrossChunkImports imports).foldl (pushImport l)
      {c with importsFromOtherChunks := imports, crossChunkPrefixStmts := []}
    some (links.set chunkIndex c)
  | _, _ => some links

/-! ### Every chunk -/

structure Linked where
  links : List ChunkLinks
  importRecords : SourceIndex → List ImportRecord

def computeCrossChunkDependencies : Option Linked :=
  let unlinked := l.chunks.map fun _ => ChunkLinks.none
  -- there can't be any cross-chunk dependencies
  if !l.codeSplitting then some ⟨unlinked, l.importRecords⟩
  else do
    let (s, metas) := walkChunks l 0 ⟨l.importRecords, fun _ => none, ⟨.empty, .empty, .empty⟩⟩ l.chunks
    let indices := List.range l.chunks.length
    let linking := indices.foldl (linkImports l s.chunkIndex) ⟨unlinked, metas⟩
    let (_, links) ← indices.foldlM (linkExports l linking.metas) (ExportRenamer.init, linking.links)
    let links ← indices.foldlM (writeImports l) links
    some ⟨links, s.importRecords⟩

end Link
end Funbun.Bundler.CrossChunk
