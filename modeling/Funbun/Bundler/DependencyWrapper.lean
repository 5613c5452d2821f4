import Funbun.Bundler.ImportBinding
import Funbun.Library.Search

/-! Which modules are wrapped, and which have exports that are known at run time only: the first two steps of
`scan_imports_and_exports`.

Step 1 looks at how each file is imported. Step 2 wraps whatever a wrapped file imports, and looks behind `export *` for
files whose exports are not known. -/
namespace Funbun.Bundler.DependencyWrapper
open Library Search
open CrossChunk (ImportKind WrapKind Format)
open ImportBinding (ExportsKind)

def keepEs6ImportExportSyntax (format : Format) : Bool := format == .esm

structure ImportRecord where
  kind : ImportKind
  sourceIndex : Option Nat
  containsImportStar : Bool
  containsDefaultAlias : Bool
  deriving DecidableEq

/-- One row of the columns. `exportsKind` is as the parser left it. -/
structure File where
  importRecords : List ImportRecord
  exportStarRecords : List Nat
  exportsKind : ExportsKind
  isEntryPoint : Bool
  isCss : Bool
  hasLazyExport : Bool
  forceCjsToEsm : Bool

def File.empty : File := ⟨[], [], .none, false, false, false, false⟩

structure Graph where
  files : List File
  outputFormat : Format
  codeSplitting : Bool

/-- `Index::RUNTIME` -/
def runtime : Nat := 0

structure Flags where
  didWrapDependencies : Bool
  wrap : WrapKind
  deriving DecidableEq

/-- What the two steps write. -/
@[ext] structure Module where
  exportsKind : ExportsKind
  flags : Flags
  deriving DecidableEq

def Module.setCjs (m : Module) : Module := {m with exportsKind := .cjs, flags := {m.flags with wrap := .cjs}}

def Module.setDynamicFallback (m : Module) : Module := {m with exportsKind := .esmWithDynamicFallback}

abbrev Modules := Nat → Module

namespace Graph
variable (g : Graph)

def file (i : Nat) : File := g.files.getD i .empty

def importRecords (i : Nat) : List ImportRecord := (g.file i).importRecords

def init : Modules := fun i => ⟨(g.file i).exportsKind, ⟨false, .none⟩⟩

/-! ### Step 1 -/

/-- A `require`, or an `import()` that is one. -/
def require (m : Module) : Module :=
  if m.exportsKind = .esm then {m with flags := {m.flags with wrap := .esm}} else m.setCjs

/-- How an import changes the module that is imported. -/
def figureOutRecord (other : File) (record : ImportRecord) (m : Module) : Module :=
  match record.kind with
  | .stmt =>
    let m := if (record.containsImportStar || record.containsDefaultAlias) && !other.hasLazyExport &&
        !other.forceCjsToEsm && m.exportsKind == .none then m.setCjs else m
    if record.containsDefaultAlias && other.forceCjsToEsm then m.setCjs else m
  | .require => require m
  | .dynamic => if g.codeSplitting then m else require m
  | _ => m

def figureOutImport (ms : Modules) (record : ImportRecord) : Modules :=
  match record.sourceIndex with
  | none => ms
  | some other =>
    if g.files.length ≤ other then ms
    else Function.update ms other (g.figureOutRecord (g.file other) record (ms other))

/-- A file that uses CommonJS itself gets a wrapper, unless it is the entry point of a bundle that needs none. -/
def figureOutOwn (id : Nat) (m : Module) : Module :=
  if m.exportsKind == .cjs &&
      (!(g.file id).isEntryPoint || g.outputFormat == .iife || g.outputFormat == .esm) then
    {m with flags := {m.flags with wrap := .cjs}}
  else m

def figureOutFile (ms : Modules) (id : Nat) : Modules :=
  if g.files.length ≤ id then ms
  else if (g.file id).isCss then ms
  else
    let ms := (g.importRecords id).foldl g.figureOutImport ms
    Function.update ms id (g.figureOutOwn id (ms id))

def figureOutCommonJs (reachableFiles : List Nat) : Modules := reachableFiles.foldl g.figureOutFile g.init

/-! ### Step 2 -/

structure Search where
  modules : Modules
  exportStarMap : Finset Nat

/-- `rec_source_index` of an `export *`. -/
def starSource (source id : Nat) : Option Nat := ((g.importRecords source)[id]?.bind (·.sourceIndex))

/-- An `export *` from outside of the bundle is dynamic, unless it stays as it is. -/
def dynamicExternal (source : Nat) : Bool :=
  !(g.file source).isEntryPoint || !keepEs6ImportExportSyntax g.outputFormat

/-- One turn of the loop over `export *`. -/
def lookBehindStar (visit : Nat → Search → Option (Bool × Search)) (source id : Nat) (s : Search) :
    Option (Bool × Search) :=
  match g.starSource source id with
  | none => some (g.dynamicExternal source, s)
  | some other => if other = source then some (false, s) else visit other s

def hasDynamicExportsDueToExportStar : Nat → Nat → Search → Option (Bool × Search)
  | 0, _, _ => none
  | fuel + 1, source, s =>
    if (s.modules source).exportsKind = .cjs ∨ (s.modules source).exportsKind = .esmWithDynamicFallback then
      some (true, s)
    else if source ∈ s.exportStarMap then some (false, s)
    else
      (untilFound (g.lookBehindStar (hasDynamicExportsDueToExportStar fuel) source) (g.file source).exportStarRecords
        {s with exportStarMap := insert source s.exportStarMap}).map
      fun (found, s) =>
        if found then
          (true, {s with modules := Function.update s.modules source (s.modules source).setDynamicFallback})
        else (false, s)

/-- One turn of a loop over records. -/
def visitImport (visit : Modules → Nat → Option Modules) (ms : Modules) (record : ImportRecord) : Option Modules :=
  match record.sourceIndex with
  | none => some ms
  | some other => visit ms other

def wrap : Nat → Modules → Nat → Option Modules
  | 0, _, _ => none
  | fuel + 1, ms, source =>
    if (ms source).flags.didWrapDependencies then some ms
    else if source = runtime then some ms
    else
      let wrapKind := if (ms source).flags.wrap = .none then
          if (ms source).exportsKind = .cjs then .cjs else .esm
        else (ms source).flags.wrap
      (g.importRecords source).foldlM (visitImport (wrap fuel)) (Function.update ms source {ms source with flags := ⟨true, wrapKind⟩})

def wrapDependencies (fuel : Nat) (ms : Modules) (id : Nat) : Option Modules :=
  if g.files.length ≤ id then some ms
  else
    (if (ms id).flags.wrap = .none then some ms else g.wrap fuel ms id).bind fun ms =>
    (if (g.file id).exportStarRecords = [] then some ms
      else (g.hasDynamicExportsDueToExportStar fuel id ⟨ms, ∅⟩).map fun (_, s) => s.modules).bind fun ms =>
    (g.importRecords id).foldlM (visitImport fun ms other =>
      if (ms other).exportsKind = .cjs then g.wrap fuel ms other else some ms) ms

def scanImportsAndExports (reachableFiles : List Nat) (fuel : Nat) : Option Modules :=
  reachableFiles.foldlM (g.wrapDependencies fuel) (g.figureOutCommonJs reachableFiles)

end Graph
end Funbun.Bundler.DependencyWrapper
