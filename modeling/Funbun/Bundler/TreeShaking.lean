import Mathlib.Data.Finset.Image
import Mathlib.Data.Finset.Prod
import Funbun.Library.Marking

/-! Tree shaking: which files and parts of a bundle are live.

Two mutually recursive depth-first walks set a bit for every live file and part, and the same bits say what was visited. The
functions below follow the walks statement by statement, with fuel for the depth of the recursion. -/
namespace Funbun.Bundler.TreeShaking

/-! ### The module graph -/

inductive ImportKind where
  | entryPointRun | entryPointBuild | stmt | require | dynamic | requireResolve
  | at | atConditional | url | composes | htmlManifest | internal
  deriving DecidableEq

inductive SideEffects where
  | hasSideEffects | noSideEffectsPackageJson | noSideEffectsEmptyAst | noSideEffectsPureData
  deriving DecidableEq

inductive PartTag where
  | none | jsxImport | runtime | cjsImports | reactFastRefresh | reactCompiler | dirnameFilename
  | bunTest | deadDueToInlining | commonjsNamedExport | importToConvertFromRequire
  deriving DecidableEq

inductive WrapKind where
  | none | cjs | esm
  deriving DecidableEq

inductive EntryPointKind where
  | none | userSpecified | dynamicImport | html
  deriving DecidableEq

def EntryPointKind.isEntryPoint (k : EntryPointKind) : Bool := k != .none

/-- `sourceIndex` is absent for an external import. -/
structure ImportRecord where
  kind : ImportKind
  sourceIndex : Option Nat
  isExternalWithoutSideEffects : Bool
  deriving DecidableEq

/-- A part of a file, named from anywhere in the graph. -/
structure Dependency where
  sourceIndex : Nat
  partIndex : Nat
  deriving DecidableEq

structure Part where
  canBeRemovedIfUnused : Bool
  tag : PartTag
  importRecordIndices : List Nat
  forceTreeShaking : Bool
  dependencies : List Dependency
  deriving DecidableEq

/-- One row of the linker's columns. `hasCss` says that the file has a style
sheet (`css_reprs`), `loaderIsHtml` that its loader is the HTML loader. -/
structure File where
  parts : List Part
  importRecords : List ImportRecord
  hasCss : Bool
  loaderIsHtml : Bool
  sideEffects : SideEffects
  entryPointKind : EntryPointKind
  wrap : WrapKind
  deriving DecidableEq

structure Options where
  treeShaking : Bool
  ignoreDceAnnotations : Bool

/-- A linked graph: every index in it is in range. -/
structure Graph where
  files : List File
  options : Options
  records_valid : ∀ f ∈ files, ∀ r ∈ f.importRecords, ∀ j, r.sourceIndex = some j → j < files.length
  indices_valid : ∀ f ∈ files, ∀ p ∈ f.parts, ∀ i ∈ p.importRecordIndices, i < f.importRecords.length
  dependencies_valid : ∀ f ∈ files, ∀ p ∈ f.parts, ∀ d ∈ p.dependencies,
    ∃ f', files[d.sourceIndex]? = some f' ∧ d.partIndex < f'.parts.length

/-- `files_live` and `parts_live`. -/
structure Liveness where
  filesLive : Finset Nat
  partsLive : Finset Dependency
  deriving DecidableEq

/-- The part a dependency names. -/
def Graph.part? (g : Graph) (d : Dependency) : Option Part :=
  (g.files[d.sourceIndex]?).bind (·.parts[d.partIndex]?)

def Graph.sideEffects (g : Graph) (i : Nat) : SideEffects :=
  match g.files[i]? with
  | some f => f.sideEffects
  | none => .hasSideEffects

/-! ### The two walks

The bodies of the two walks take the walks they call as arguments, so that each
loop is a function of its own; `markFileLive` and `markPartLive` tie the knot. -/

section Walk
variable (g : Graph)

/-- CSS and HTML files are walked through all their import records. -/
def File.followsRecords (f : File) : Bool := f.hasCss || f.loaderIsHtml

/-- What the loop over a part's import records carries: the liveness so far and
`can_be_removed_if_unused`. -/
structure ImportScan where
  live : Liveness
  canBeRemovedIfUnused : Bool

/-- One import record of a part. -/
def scanImport (markFile : Nat → Liveness → Option Liveness) (scan : ImportScan)
    (record : ImportRecord) : Option ImportScan :=
  if record.kind != .stmt then some scan
  else
    match record.sourceIndex with
    | some other =>
      -- don't include the module for its side effects if it can be considered to have none
      if g.sideEffects other != .hasSideEffects && !g.options.ignoreDceAnnotations then some scan
      else (markFile other scan.live).map (⟨·, false⟩)
    | none =>
      if record.isExternalWithoutSideEffects then some scan
      else some {scan with canBeRemovedIfUnused := false}

/-- The statement-level imports of a part. -/
def scanImports (markFile : Nat → Liveness → Option Liveness) (file : File) (part : Part)
    (s : Liveness) : Option ImportScan :=
  part.importRecordIndices.foldlM (fun scan importIndex =>
    match file.importRecords[importIndex]? with
    | none => some scan
    | some record => scanImport g markFile scan record)
    { live := s
      -- a CommonJS named export is kept in a file that is wrapped
      canBeRemovedIfUnused := part.canBeRemovedIfUnused &&
        !(part.tag == .commonjsNamedExport && file.wrap == .cjs) }

/-- One part of a live file: its imports, then the part itself if it must be kept. -/
def visitPart (markFile : Nat → Liveness → Option Liveness)
    (markPart : Dependency → Liveness → Option Liveness) (sourceIndex : Nat) (file : File)
    (s : Liveness) (partIndex : Nat) : Option Liveness :=
  match file.parts[partIndex]? with
  | none => some s
  | some part =>
    (scanImports g markFile file part s).bind fun scan =>
      if !scan.canBeRemovedIfUnused ||
          (!part.forceTreeShaking && !g.options.treeShaking && file.entryPointKind.isEntryPoint) then
        markPart ⟨sourceIndex, partIndex⟩ scan.live
      else some scan.live

/-- A file that has just been marked. -/
def visitFile (markFile : Nat → Liveness → Option Liveness)
    (markPart : Dependency → Liveness → Option Liveness) (sourceIndex : Nat) (file : File)
    (s : Liveness) : Option Liveness :=
  if file.followsRecords then
    file.importRecords.foldlM (fun s record =>
      match record.sourceIndex with
      | some other => markFile other s
      | none => some s) s
  else
    (List.range file.parts.length).foldlM (visitPart g markFile markPart sourceIndex file) s

mutual

/-- `mark_file_live_for_tree_shaking` -/
def markFileLive : Nat → Nat → Liveness → Option Liveness
  | 0, _, _ => none
  | fuel + 1, sourceIndex, s =>
    if sourceIndex ∈ s.filesLive then some s
    else
      let s := {s with filesLive := insert sourceIndex s.filesLive}
      match g.files[sourceIndex]? with
      | none => some s
      | some file => visitFile g (markFileLive fuel) (markPartLive fuel) sourceIndex file s

/-- `mark_part_live_for_tree_shaking` -/
def markPartLive : Nat → Dependency → Liveness → Option Liveness
  | 0, _, _ => none
  | fuel + 1, d, s =>
    if d ∈ s.partsLive then some s
    else
      let s := {s with partsLive := insert d s.partsLive}
      -- include the file containing this part
      (markFileLive fuel d.sourceIndex s).bind fun s =>
        match g.part? d with
        | none => some s
        | some part => part.dependencies.foldlM (fun s d => markPartLive fuel d s) s

end

/-- Every entry point in turn marks what it needs. -/
def markEntryPoints (fuel : Nat) (entryPoints : List Nat) (s : Liveness) : Option Liveness :=
  entryPoints.foldlM (fun s i => markFileLive g fuel i s) s

/-- The bits set before the first entry point is walked: an HTML file's part 1,
which the file's own walk never looks at. -/
def seededParts : Finset Dependency :=
  ((List.range g.files.length).filter fun i =>
    match g.files[i]? with
    | some f => f.loaderIsHtml && decide (1 < f.parts.length)
    | none => false).toFinset.image (⟨·, 1⟩)

end Walk

end Funbun.Bundler.TreeShaking
