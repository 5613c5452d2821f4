import Funbun.Bundler.CrossChunk

/-! Binding imports to the symbols they name.

`addExports` copies to each file the exports its `export *` statements pass on. When a name arrives from two files, the
others are kept as candidates that may be the same symbol. `matchImportWithExport` then follows an import until it meets a
symbol that is not itself an import, and every candidate it passes in a call of its own. -/
namespace Funbun.Bundler.ImportBinding
open Library CrossChunk

/-! ### The files -/

/-- A string borrowed from a syntax tree. Two of them are the same when they are the same
memory, whatever the bytes are. -/
structure StoreStr where
  address : Nat
  bytes : Name
  deriving DecidableEq

def StoreStr.empty : StoreStr := ⟨0, []⟩

def StoreStr.ptrEq (a b : StoreStr) : Bool :=
  a.address == b.address && a.bytes.length == b.bytes.length

/-- `importAlias` is the name in the other file; it has none for `export * as ns`. -/
structure NamedImport where
  importAlias : Option StoreStr
  aliasLoc : Int
  namespaceRef : Option Ref
  importRecordIndex : Nat
  aliasIsStar : Bool
  isExported : Bool

structure NamedExport where
  ref : Ref
  aliasLoc : Int

structure ImportRecord where
  sourceIndex : Option SourceIndex
  isUnused : Bool

inductive ExportsKind where
  | none | cjs | esm | esmWithDynamicFallback | esmWithDynamicFallbackFromCjs
  deriving DecidableEq

def ExportsKind.isEsmWithDynamicFallback : ExportsKind → Bool
  | .esmWithDynamicFallback | .esmWithDynamicFallbackFromCjs => true
  | _ => false

structure AstFlags where
  hasLazyExport : Bool
  usesExportKeyword : Bool
  usesExportsRef : Bool
  usesModuleRef : Bool
  forceCjsToEsm : Bool

/-- The columns of a file that binding reads. `isPolyfill` says that its path is one of the
fallback modules, `hasBuiltinAlias` that its path names a module built into the runtime. -/
structure File where
  namedImports : ArrayMap Ref NamedImport
  namedExports : ArrayMap Name NamedExport
  importRecords : List ImportRecord
  exportStarImportRecords : List Nat
  exportsKind : ExportsKind
  flags : AstFlags
  exportsRef : Option Ref
  topLevelSymbolToParts : Ref → List Nat
  isDisabled : Bool
  isTypescript : Bool
  isPolyfill : Bool
  hasBuiltinAlias : Bool

/-- A row of a column that does not have it. -/
def File.empty : File where
  namedImports := .empty
  namedExports := .empty
  importRecords := []
  exportStarImportRecords := []
  exportsKind := .none
  flags := ⟨false, false, false, false, false⟩
  exportsRef := none
  topLevelSymbolToParts := fun _ => []
  isDisabled := false
  isTypescript := false
  isPolyfill := false
  hasBuiltinAlias := false

structure Graph where
  files : List File
  outputFormat : Format
  targetIsBrowser : Bool

def Graph.file (g : Graph) (source : SourceIndex) : File := g.files.getD source .empty

/-! ### What the linker notes about them -/

/-- Where an import stands: a symbol of a file, and the place of the export that led there. -/
structure ImportTracker where
  sourceIndex : Option SourceIndex
  nameLoc : Int
  importRef : Option Ref
  deriving DecidableEq

def ImportTracker.default : ImportTracker := ⟨none, -1, none⟩

structure Dependency where
  sourceIndex : SourceIndex
  partIndex : Nat
  deriving DecidableEq

structure ImportData where
  reExports : List Dependency
  data : ImportTracker

structure ExportData where
  potentiallyAmbiguousExportStarRefs : List ImportData
  data : ImportTracker

def ExportData.default : ExportData := ⟨[], .default⟩

structure FileMeta where
  resolvedExports : ArrayMap Name ExportData
  resolvedExportStar : ExportData
  importsToBind : ArrayMap Ref ImportData
  probablyTypescriptType : ArraySet Ref

def FileMeta.empty : FileMeta := ⟨.empty, .default, .empty, .empty⟩

/-- One row a file. -/
abbrev Meta := List FileMeta

def Meta.row (m : Meta) (source : SourceIndex) : FileMeta := m.getD source .empty

/-- The import a tracker stands at, if it stands at one. -/
def Graph.namedImport? (g : Graph) (tracker : ImportTracker) : Option NamedImport := do
  let source ← tracker.sourceIndex
  let ref ← tracker.importRef
  (g.file source).namedImports.get? ref

/-! ### Export stars -/

def defaultName : Name := [100, 101, 102, 97, 117, 108, 116]

/-- `resolved_exports` as `LinkerGraph::load` leaves it. -/
def Graph.load (g : Graph) : Meta :=
  g.files.zipIdx.map fun (file, source) =>
    { FileMeta.empty with
      resolvedExports :=
        file.namedExports.entries.foldl
          (fun resolved (exportAlias, name) =>
            resolved.put exportAlias ⟨[], ⟨some source, name.aliasLoc, some name.ref⟩⟩)
          .empty }

/-- `stack` holds the files whose export stars are being followed. -/
structure ExportStarContext where
  stack : List SourceIndex
  columns : Meta

/-- One export of `other`, on its way to `target` through an export star of `source`. -/
def addExport (g : Graph) (stackEndPos : Nat) (target source other : SourceIndex)
    (ctx : ExportStarContext) (entry : Name × NamedExport) : ExportStarContext :=
  let (exportAlias, name) := entry
  if exportAlias = defaultName then ctx
  else if (ctx.stack.take stackEndPos).any fun prev => (g.file prev).namedExports.contains exportAlias then
    ctx
  else
    let tracker : ImportTracker := ⟨some other, name.aliasLoc, some name.ref⟩
    match (ctx.columns.row target).resolvedExports.get? exportAlias with
    | none =>
      let columns := ctx.columns.modify target fun row =>
        {row with resolvedExports := row.resolvedExports.put exportAlias ⟨[], tracker⟩}
      let columns := columns.modify source fun row =>
        {row with importsToBind := row.importsToBind.put name.ref ⟨[], {tracker with nameLoc := -1}⟩}
      {ctx with columns}
    | some existing =>
      if existing.data.sourceIndex = some other then ctx
      else
        let refs := existing.potentiallyAmbiguousExportStarRefs ++ [⟨[], tracker⟩]
        let columns := ctx.columns.modify target fun row =>
          {row with resolvedExports := row.resolvedExports.put exportAlias ⟨refs, existing.data⟩}
        {ctx with columns}

/-- The file an export star statement is about, unless its exports cannot be told. -/
def Graph.exportStarTarget? (g : Graph) (source : SourceIndex) (importId : Nat) : Option SourceIndex := do
  let record ← (g.file source).importRecords[importId]?
  let other ← record.sourceIndex
  if other ≥ g.files.length then none
  else if (g.file other).exportsKind = .cjs then none
  else some other

/-- One export star statement of `source`; `search` looks through the other file's own. -/
def addExportStar (g : Graph) (search : SourceIndex → ExportStarContext → Option ExportStarContext)
    (stackEndPos : Nat) (target source : SourceIndex) (ctx : ExportStarContext) (importId : Nat) :
    Option ExportStarContext :=
  match g.exportStarTarget? source importId with
  | none => some ctx
  | some other =>
    search other ((g.file other).namedExports.entries.foldl (addExport g stackEndPos target source other) ctx)

/-- `ExportStarContext::add_exports` -/
def addExports (g : Graph) : Nat → SourceIndex → SourceIndex → ExportStarContext → Option ExportStarContext
  | 0, _, _, _ => none
  | fuel + 1, target, source, ctx =>
    if source ∈ ctx.stack then some ctx
    else do
      let stack := ctx.stack ++ [source]
      let ctx ← (g.file source).exportStarImportRecords.foldlM
        (addExportStar g (addExports g fuel target) stack.length target source) {ctx with stack}
      some {ctx with stack := ctx.stack.take (stack.length - 1)}

/-- Step 3 of `scan_imports_and_exports`, for one file. -/
def resolveExportStarStatements (g : Graph) (fuel : Nat) (columns : Meta) (source : SourceIndex) :
    Option Meta := do
  let columns ←
    if (g.file source).exportStarImportRecords.length > 0 then
      (addExports g fuel source source ⟨[], columns⟩).map ExportStarContext.columns
    else some columns
  some (columns.modify source fun row =>
    {row with resolvedExportStar := ⟨[], ⟨some source, -1, (g.file source).exportsRef⟩⟩})

/-- Step 3 of `scan_imports_and_exports`. -/
def resolveAllExportStars (g : Graph) (fuel : Nat) (reachable : List SourceIndex) (columns : Meta) :
    Option Meta :=
  reachable.foldlM (resolveExportStarStatements g fuel) columns

/-! ### One step along a chain of imports -/

inductive ImportTrackerStatus where
  | noMatch | found | cjs | dynamicFallback | dynamicFallbackInteropDefault | cjsWithoutExports
  | disabled | external | probablyTypescriptType
  deriving DecidableEq

structure ImportTrackerIterator where
  status : ImportTrackerStatus
  value : ImportTracker
  importData : List ImportData

/-- Whether a name imported from this file is known to be missing because the file exports
nothing. -/
def File.hasNoExportFor (file : File) (namedImport : NamedImport) : Bool :=
  !namedImport.aliasIsStar && file.flags.hasLazyExport && !file.flags.usesExportKeyword &&
    (namedImport.importAlias.map fun s => decide (s.bytes ≠ defaultName)).getD true &&
    !file.flags.usesExportsRef && !file.flags.usesModuleRef

/-- The export that an import of the file `other` finds. -/
def matchingExport? (m : Meta) (other : SourceIndex) (namedImport : NamedImport) : Option ExportData :=
  let star := (m.row other).resolvedExportStar
  if namedImport.aliasIsStar && star.data.importRef.isSome then some star
  else (m.row other).resolvedExports.get? (namedImport.importAlias.getD .empty).bytes

/-- `LinkerContext::advance_import_tracker` -/
def advanceImportTracker (g : Graph) (m : Meta) (tracker : ImportTracker) : ImportTrackerIterator :=
  match g.namedImport? tracker with
  | none => ⟨.external, .default, []⟩
  | some namedImport =>
    let file := g.file (tracker.sourceIndex.getD 0)
    match file.importRecords[namedImport.importRecordIndex]? with
    | none => ⟨.external, .default, []⟩
    | some record =>
      match record.sourceIndex with
      | none => ⟨.external, .default, []⟩
      | some other =>
        if record.isUnused then ⟨.external, .default, []⟩
        else if other > g.files.length ∨ (g.file other).isDisabled then
          ⟨.disabled, {ImportTracker.default with sourceIndex := some other}, []⟩
        else if (g.file other).hasNoExportFor namedImport then
          ⟨.cjsWithoutExports, {ImportTracker.default with sourceIndex := some other}, []⟩
        else if (g.file other).exportsKind = .cjs then
          ⟨.cjs, {ImportTracker.default with sourceIndex := some other}, []⟩
        else match matchingExport? m other namedImport with
          | some matching => ⟨.found, matching.data, matching.potentiallyAmbiguousExportStarRefs⟩
          | none =>
            let isCommonjsToEsm := (g.file other).flags.forceCjsToEsm
            if (g.file other).exportsKind.isEsmWithDynamicFallback || isCommonjsToEsm then
              let status : ImportTrackerStatus :=
                if isCommonjsToEsm then .dynamicFallbackInteropDefault else .dynamicFallback
              ⟨status, ⟨some other, -1, (g.file other).exportsRef⟩, []⟩
            else if namedImport.isExported && (g.file other).isTypescript then
              ⟨.probablyTypescriptType, .default, []⟩
            else ⟨.noMatch, {ImportTracker.default with sourceIndex := some other}, []⟩

/-! ### Following a chain -/

inductive MatchImportKind where
  | ignore | normal | namespace | normalAndNamespace | cycle | probablyTypescriptType | ambiguous
  deriving DecidableEq

structure MatchImport where
  importAlias : StoreStr
  kind : MatchImportKind
  namespaceRef : Option Ref
  sourceIndex : SourceIndex
  nameLoc : Int
  otherSourceIndex : SourceIndex
  otherNameLoc : Int
  ref : Option Ref
  deriving DecidableEq

def MatchImport.default : MatchImport := ⟨.empty, .ignore, none, 0, -1, 0, -1, none⟩

/-- `PartialEq for MatchImport` -/
def MatchImport.beq (a b : MatchImport) : Bool :=
  a.importAlias.ptrEq b.importAlias && a.kind == b.kind && a.namespaceRef == b.namespaceRef &&
    a.sourceIndex == b.sourceIndex && a.nameLoc == b.nameLoc &&
    a.otherSourceIndex == b.otherSourceIndex && a.otherNameLoc == b.otherNameLoc && a.ref == b.ref

/-- The import is bound to what the tracker stands at. -/
def MatchImport.normal (tracker : ImportTracker) : MatchImport :=
  { MatchImport.default with
    kind := .normal
    sourceIndex := tracker.sourceIndex.getD 0
    ref := tracker.importRef
    nameLoc := tracker.nameLoc }

inductive Level where
  | warning | error
  deriving DecidableEq

/-- What the linker says about an import. `path` is the file whose path is quoted. -/
inductive Problem where
  | noExports (importAlias : Name) (path : SourceIndex)
  | willBeUndefined (importAlias : Name) (path : SourceIndex)
  | noMatchingExport (importAlias : Name) (path : SourceIndex)
  | polyfillHasNoExport (importAlias : Name) (path : SourceIndex)
  | cycle (importAlias : Name)
  | ambiguousWillBeUndefined (importAlias : Name)
  | ambiguous (importAlias : Name)
  deriving DecidableEq

/-- The text of a message, given how names and the paths of files are written. -/
def Problem.text (name : Name → String) (pretty : SourceIndex → String) : Problem → String
  | .noExports a p => "Import \"" ++ name a ++ "\" will always be undefined because the file \"" ++
      pretty p ++ "\" has no exports"
  | .willBeUndefined a p => "Import \"" ++ name a ++
      "\" will always be undefined because there is no matching export in \"" ++ pretty p ++ "\""
  | .noMatchingExport a p => "No matching export in \"" ++ pretty p ++ "\" for import \"" ++ name a ++ "\""
  | .polyfillHasNoExport a p => "Browser polyfill for module \"" ++ pretty p ++
      "\" doesn't have a matching export named \"" ++ name a ++ "\""
  | .cycle a => "Detected cycle while resolving import \"" ++ name a ++ "\""
  | .ambiguousWillBeUndefined a => "Import \"" ++ name a ++
      "\" will always be undefined because there are multiple matching exports"
  | .ambiguous a => "Ambiguous import \"" ++ name a ++ "\" has multiple matching exports"

/-- A message about the import written at `loc` in `source`. -/
structure Complaint where
  level : Level
  source : SourceIndex
  loc : Int
  problem : Problem
  deriving DecidableEq

structure MatchState where
  cycleDetector : List ImportTracker
  reExports : List Dependency
  importItemStatus : Ref → ImportItemStatus
  log : List Complaint

def MatchState.complain (s : MatchState) (c : Complaint) : MatchState := {s with log := s.log ++ [c]}

def MatchState.setMissing (s : MatchState) (ref : Ref) : MatchState :=
  {s with importItemStatus := Function.update s.importItemStatus ref .missing}

/-- An import that finds nothing. Where the parser made the import out of a property access
on a namespace, the value is undefined; elsewhere it is an error. -/
def reportNoMatch (g : Graph) (source : SourceIndex) (ref : Ref) (namedImport : NamedImport)
    (next : SourceIndex) (s : MatchState) : MatchState :=
  let importAlias := (namedImport.importAlias.getD .empty).bytes
  if s.importItemStatus ref = .generated then
    let problem : Problem :=
      if g.targetIsBrowser && (g.file next).hasBuiltinAlias then .polyfillHasNoExport importAlias next
      else .willBeUndefined importAlias next
    (s.setMissing ref).complain ⟨.warning, source, namedImport.aliasLoc, problem⟩
  else
    let problem : Problem :=
      if g.targetIsBrowser && (g.file next).isPolyfill then .polyfillHasNoExport importAlias next
      else .noMatchingExport importAlias next
    s.complain ⟨.error, source, namedImport.aliasLoc, problem⟩

/-- Rewriting an import to a property access on a namespace. -/
def MatchImport.accessThrough (result : MatchImport) (namespaceRef : Option Ref)
    (importAlias : StoreStr) : MatchImport :=
  if result.kind = .normal then
    {result with kind := .normalAndNamespace, namespaceRef, importAlias}
  else {MatchImport.default with kind := .namespace, namespaceRef, importAlias}

/-- The arms of `match_import_with_export` that end its loop without an export found. -/
def settleImport (g : Graph) (source : SourceIndex) (ref : Ref) (namedImport : NamedImport)
    (advanced : ImportTrackerIterator) (result : MatchImport) (s : MatchState) : MatchImport × MatchState :=
  let importAlias := namedImport.importAlias.getD .empty
  match advanced.status with
  | .cjs | .cjsWithoutExports | .disabled | .external =>
    if advanced.status = .external ∧ g.outputFormat = .esm then (result, s)
    else
      let result :=
        if namedImport.namespaceRef.isSome then result.accessThrough namedImport.namespaceRef importAlias
        else result
      let s :=
        if advanced.status = .cjsWithoutExports then
          s.complain ⟨.warning, source, namedImport.aliasLoc, .noExports importAlias.bytes source⟩
        else s
      (result, s)
  | .dynamicFallbackInteropDefault =>
    if namedImport.namespaceRef.isSome then
      let result :=
        { result with
          kind := .normalAndNamespace
          namespaceRef := some ref
          importAlias
          nameLoc := namedImport.aliasLoc }
      (result, s.setMissing ref)
    else (result, s)
  | .dynamicFallback =>
    if namedImport.namespaceRef.isSome then
      (result.accessThrough advanced.value.importRef importAlias, s)
    else (result, s)
  | .noMatch => (result, reportNoMatch g source ref namedImport (advanced.value.sourceIndex.getD 0) s)
  | .probablyTypescriptType => ({MatchImport.default with kind := .probablyTypescriptType}, s)
  | .found => (result, s)

/-- If there is a potential ambiguity, all results must be the same. -/
def checkAmbiguous (result : MatchImport) : List MatchImport → MatchImport
  | [] => result
  | ambig :: rest =>
    if ambig.beq result then checkAmbiguous result rest
    else if result.kind = ambig.kind ∧ ambig.kind = .normal ∧ ambig.nameLoc ≠ 0 ∧ result.nameLoc ≠ 0 then
      { MatchImport.default with
        kind := .ambiguous
        sourceIndex := result.sourceIndex
        nameLoc := result.nameLoc
        otherSourceIndex := ambig.sourceIndex
        otherNameLoc := ambig.nameLoc }
    else {MatchImport.default with kind := .ambiguous}

/-- What happens behind the loop of `match_import_with_export`. -/
def finishMatch (top : Nat) (ambiguousResults : List MatchImport) (result : MatchImport) (s : MatchState) :
    MatchImport × MatchState :=
  (checkAmbiguous result ambiguousResults, {s with cycleDetector := s.cycleDetector.take top})

/-- Depend on the statements that declared this import in its file. -/
def MatchState.dependOn (s : MatchState) (g : Graph) (source : SourceIndex) (ref : Ref) : MatchState :=
  {s with reExports := s.reExports ++
    ((g.file source).topLevelSymbolToParts ref).map fun part => ⟨source, part⟩}

/-- What one candidate leads to: an import is followed by `call`, anything else is a symbol. -/
def followCandidate (g : Graph) (call : ImportTracker → MatchState → Option (MatchImport × MatchState))
    (found : List MatchImport × MatchState) (candidate : ImportData) :
    Option (List MatchImport × MatchState) :=
  if (g.namedImport? candidate.data).isSome then do
    let (ambig, s) ← call candidate.data found.2
    some (found.1 ++ [ambig], s)
  else some (found.1 ++ [.normal candidate.data], found.2)

/-- The loop of `match_import_with_export`, whose calls of itself start it anew. -/
def matchLoop (g : Graph) (m : Meta) :
    Nat → Nat → ImportTracker → List MatchImport → MatchImport → MatchState → Option (MatchImport × MatchState)
  | 0, _, _, _, _, _ => none
  | fuel + 1, top, tracker, ambiguousResults, result, s =>
    if tracker ∈ s.cycleDetector.drop top then
      some (finishMatch top ambiguousResults {MatchImport.default with kind := .cycle} s)
    else match tracker.sourceIndex with
      | none => some (finishMatch top ambiguousResults result s)
      | some source =>
        let s := {s with cycleDetector := s.cycleDetector ++ [tracker]}
        let advanced := advanceImportTracker g m tracker
        match tracker.importRef, g.namedImport? tracker with
        | some ref, some namedImport =>
          if advanced.status = .found then do
            let (ambiguousResults, s) ← advanced.importData.foldlM
              (followCandidate g fun candidate s =>
                matchLoop g m fuel s.cycleDetector.length candidate [] .default s)
              (ambiguousResults, s)
            let result := MatchImport.normal advanced.value
            let s := s.dependOn g source ref
            if (g.namedImport? advanced.value).isSome then
              matchLoop g m fuel top advanced.value ambiguousResults result s
            else some (finishMatch top ambiguousResults result s)
          else
            let (result, s) := settleImport g source ref namedImport advanced result s
            some (finishMatch top ambiguousResults result s)
        -- Nothing but an import is ever followed.
        | _, _ => some (finishMatch top ambiguousResults result s)

/-- `LinkerContext::match_import_with_export` -/
def matchImportWithExport (g : Graph) (m : Meta) (fuel : Nat) (initTracker : ImportTracker) (s : MatchState) :
    Option (MatchImport × MatchState) :=
  matchLoop g m fuel s.cycleDetector.length initTracker [] .default s

end Funbun.Bundler.ImportBinding
