import Mathlib.Data.List.Sort

/-! Hoisting: which package goes into which `node_modules` folder.

`Lockfile::hoist` builds a list of folders, the trees. `process_subtree` puts the dependencies of a package in place: each
is walked up from the new folder by `hoist_dependency` until a folder has an entry of that name, or the walk can go no
higher. A queue holds the placed dependencies whose packages are still to be processed. -/
namespace Funbun.Install

abbrev PackageID := Nat
abbrev DependencyID := Nat
abbrev PackageNameHash := UInt64

/-! ### The package graph -/

/-- The flags of a dependency. `bundled` is not set for transitive bundled dependencies. -/
structure Behavior where
  prod : Bool
  optional : Bool
  dev : Bool
  peer : Bool
  workspace : Bool
  bundled : Bool
  deriving DecidableEq

structure Features where
  optionalDependencies : Bool
  devDependencies : Bool
  peerDependencies : Bool
  workspaces : Bool

namespace Behavior

/-- Optional peers are reported separately. -/
def isOptional (b : Behavior) : Bool := b.optional && !b.peer

def isOptionalPeer (b : Behavior) : Bool := b.optional && b.peer

def isEnabled (b : Behavior) (features : Features) : Bool :=
  b.prod || (features.optionalDependencies && b.isOptional) || (features.devDependencies && b.dev) ||
    (features.peerDependencies && b.peer) || (features.workspaces && b.workspace)

/-- Workspaces first, then dev, optional, prod and peer dependencies. -/
def cmp (l r : Behavior) : Ordering :=
  if l == r then .eq
  else if l.workspace != r.workspace then bif l.workspace then .lt else .gt
  else if l.dev != r.dev then bif l.dev then .lt else .gt
  else if l.isOptional != r.isOptional then bif l.isOptional then .lt else .gt
  else if l.prod != r.prod then bif l.prod then .lt else .gt
  else if l.peer != r.peer then bif l.peer then .lt else .gt
  else .eq

end Behavior

inductive DependencyVersionTag where
  | uninitialized | npm | distTag | tarball | folder | symlink | workspace | git | github | catalog
  deriving DecidableEq

inductive ResolutionTag where
  | uninitialized | root | npm | folder | localTarball | github | git | symlink | workspace
  | remoteTarball | singleFileModule
  deriving DecidableEq

structure Dependency where
  name : List UInt8
  nameHash : PackageNameHash
  behavior : Behavior
  versionTag : DependencyVersionTag
  deriving DecidableEq

/-- A range of a buffer. -/
structure Slice where
  off : Nat
  len : Nat
  deriving DecidableEq

def Slice.contains (s : Slice) (i : Nat) : Bool := decide (s.off ≤ i) && decide (i < s.off + s.len)

def Slice.get {α : Type} (s : Slice) (buffer : List α) : List α := (buffer.drop s.off).take s.len

/-- `begin()..end()` -/
def Slice.indices (s : Slice) : List Nat := List.range' s.off s.len

/-- `dependencies` and `resolutions` are the ranges of the package in the two
buffers of the lockfile that go by dependency. -/
structure Package where
  name : List UInt8
  resolution : ResolutionTag
  dependencies : Slice
  resolutions : Slice
  deriving DecidableEq

/-- A lockfile before hoisting: every index in it is in range. `resolutions` holds
the package each dependency resolved to, if it did; `satisfies` says whether the npm
range of a dependency is satisfied by the npm version of a package. -/
structure Lockfile where
  packages : List Package
  dependencies : List Dependency
  resolutions : List (Option PackageID)
  satisfies : DependencyID → PackageID → Bool
  packages_nonempty : packages ≠ []
  resolutions_length : resolutions.length = dependencies.length
  resolutions_valid : ∀ r ∈ resolutions, ∀ p ∈ r, p < packages.length
  slices_valid : ∀ p ∈ packages, p.resolutions.off + p.resolutions.len ≤ dependencies.length

namespace Lockfile
variable (lockfile : Lockfile)

def dependency (id : DependencyID) : Dependency :=
  lockfile.dependencies[id]?.getD ⟨[], 0, ⟨false, false, false, false, false, false⟩, .uninitialized⟩

def resolutionTag (id : PackageID) : ResolutionTag :=
  (lockfile.packages[id]?.map (·.resolution)).getD .uninitialized

/-- `resolution_lists[id]` -/
def resolutionList (id : PackageID) : Slice :=
  (lockfile.packages[id]?.map (·.resolutions)).getD ⟨0, 0⟩

/-- Is this a direct dependency of the workspace root package.json? -/
def isWorkspaceRootDependency (id : DependencyID) : Bool :=
  (lockfile.packages[0]?.map (·.dependencies.contains id)).getD false

/-- `DepSorter::is_less_than` -/
def isLessThan (l r : DependencyID) : Bool :=
  match (lockfile.dependency l).behavior.cmp (lockfile.dependency r).behavior with
  | .lt => true
  | .gt => false
  | .eq => decide ((lockfile.dependency l).name < (lockfile.dependency r).name)

/-- The dependencies of a package in the order they are processed (`sort_buf`). -/
def sortedDependencies (id : PackageID) : List DependencyID :=
  (lockfile.resolutionList id).indices.insertionSort fun a b => lockfile.isLessThan b a = false

end Lockfile

/-- Rejects a name that could resolve outside `node_modules/`. -/
def isSafeInstallFolderName (name : List UInt8) : Bool :=
  !name.isEmpty && (name.splitOn 47).all fun component =>
    !component.isEmpty && component != [46] && component != [46, 46] &&
      component.all fun c => c != 92 && c != 58 && c != 0

/-! ### Filters -/

inductive MatchResult where
  | noMatch | match | negateNoMatch | negateMatch
  deriving DecidableEq

inductive WorkspaceFilter where
  | all
  | name (pattern : List UInt8)
  | path (pattern : List UInt8)
  deriving DecidableEq

/-- What the filtering reads of the package manager. `isDisabled` is
`Meta::is_disabled` for the manager's cpu and os, `filterPath` the absolute path of
a workspace and `glob` the glob matcher. -/
structure PackageManager where
  localPackageFeatures : Features
  remotePackageFeatures : Features
  subcommandIsInstall : Bool
  isDisabled : PackageID → Bool
  filterPath : PackageID → List UInt8
  glob : List UInt8 → List UInt8 → MatchResult

/-- The arguments of `Lockfile::hoist` when it filters. -/
structure Filter where
  manager : PackageManager
  installRootDependencies : Bool
  workspaceFilters : List WorkspaceFilter
  packagesToInstall : Option (List PackageID)

inductive BuilderMethod where
  | resolvable
  | filter (f : Filter)

section Filter
variable (lockfile : Lockfile)

/-- The loop over the workspace filters, from the match so far. -/
def workspaceFiltered (f : Filter) (pkgId : PackageID) : List WorkspaceFilter → Bool → Bool
  | [], workspaceMatched => !workspaceMatched
  | .all :: filters, _ => workspaceFiltered f pkgId filters true
  | .name pattern :: filters, workspaceMatched =>
    match f.manager.glob pattern ((lockfile.packages[pkgId]?.map (·.name)).getD []) with
    | .match | .negateMatch => workspaceFiltered f pkgId filters true
    -- always skip if a pattern specifically says "!<name|path>"
    | .negateNoMatch => true
    | .noMatch => workspaceFiltered f pkgId filters workspaceMatched
  | .path pattern :: filters, workspaceMatched =>
    if lockfile.resolutionTag pkgId != .workspace then false
    else
      match f.manager.glob pattern (f.manager.filterPath pkgId) with
      | .match | .negateMatch => workspaceFiltered f pkgId filters true
      | .negateNoMatch => true
      | .noMatch => workspaceFiltered f pkgId filters workspaceMatched

def isFilteredDependencyOrWorkspace (f : Filter) (depId : DependencyID) (parentPkgId : PackageID)
    (resolution : Option PackageID) : Bool :=
  let dep := lockfile.dependency depId
  match resolution with
  | none => !dep.behavior.isOptionalPeer
  | some pkgId =>
    if f.manager.isDisabled pkgId then true
    else if dep.behavior.bundled then true
    else
      let depFeatures := match lockfile.resolutionTag parentPkgId with
        | .root | .workspace | .folder => f.manager.localPackageFeatures
        | _ => f.manager.remotePackageFeatures
      if !dep.behavior.isEnabled depFeatures then true
      -- filtering only applies to the root package dependencies
      else if !f.manager.subcommandIsInstall || parentPkgId != 0 then false
      else if !dep.behavior.workspace then !f.installRootDependencies
      else workspaceFiltered lockfile f pkgId f.workspaceFilters f.workspaceFilters.isEmpty

/-- Whether the loop over a package's dependencies skips this one. -/
def BuilderMethod.skips (method : BuilderMethod) (depId : DependencyID) (parentPkgId : PackageID)
    (resolution : Option PackageID) : Bool :=
  match method with
  | .resolvable => false
  | .filter f =>
    isFilteredDependencyOrWorkspace lockfile f depId parentPkgId resolution ||
      -- unresolved packages already had their chance to resolve
      resolution.isNone ||
      match f.packagesToInstall with
      | none => false
      | some packages => parentPkgId == 0 && !packages.any (resolution == some ·)

end Filter

/-! ### The builder -/

/-- A `node_modules` folder. `parent` and `dependencyId` are absent for the root
(`INVALID_ID` and `ROOT_DEP_ID`). -/
structure Tree where
  id : Nat
  dependencyId : Option DependencyID
  parent : Option Nat
  dependencies : Slice
  deriving DecidableEq

structure BuilderEntry where
  tree : Tree
  dependencies : List DependencyID
  deriving DecidableEq

/-- Dependencies of a subtree do not hoist beyond `hoistRootId`. -/
structure FillItem where
  treeId : Nat
  dependencyId : DependencyID
  hoistRootId : Option Nat
  deriving DecidableEq

/-- `pendingOptionalPeers` holds, by name, the unresolved optional peers that may be
resolved later. `log` holds the names reported as invalid. -/
structure Builder where
  list : List BuilderEntry
  resolutions : List (Option PackageID)
  queue : List FillItem
  pendingOptionalPeers : PackageNameHash → List DependencyID
  log : List (List UInt8)

inductive SubtreeError where
  | outOfMemory | dependencyLoop
  deriving DecidableEq

inductive HoistDependencyResult where
  | dependencyLoop
  | hoisted
  | resolve (id : PackageID)
  | resolveReplace (id : Nat) (depId : DependencyID)
  | resolveLater
  | placement (id : Nat) (bundled : Bool)
  deriving DecidableEq

namespace Builder

def resolution (b : Builder) (id : DependencyID) : Option PackageID := (b.resolutions[id]?).join

/-- `resolutions[id] = pkg` -/
def setResolution (b : Builder) (id : DependencyID) (pkg : PackageID) : Builder :=
  {b with resolutions := b.resolutions.set id (some pkg)}

/-- The entries of a folder, as its tree's slice gives them. -/
def entries (b : Builder) (id : Nat) : List DependencyID :=
  match b.list[id]? with
  | some e => e.tree.dependencies.get e.dependencies
  | none => []

def parent (b : Builder) (id : Nat) : Option Nat := (b.list[id]?).bind (·.tree.parent)

/-- Resolves a dependency, and with it every pending one of that name. -/
def resolvePending (b : Builder) (hash : PackageNameHash) (id : DependencyID) (pkg : PackageID) :
    Builder :=
  let b := b.setResolution id pkg
  let b := (b.pendingOptionalPeers hash).foldl (fun b id => b.setResolution id pkg) b
  {b with pendingOptionalPeers := Function.update b.pendingOptionalPeers hash []}

/-- Remembers an unresolved optional peer. -/
def resolveLater (b : Builder) (hash : PackageNameHash) (id : DependencyID) : Builder :=
  let ids := b.pendingOptionalPeers hash
  {b with pendingOptionalPeers :=
    Function.update b.pendingOptionalPeers hash (if id ∈ ids then ids else ids ++ [id])}

/-- Puts another dependency at the place of an entry. -/
def replaceEntry (b : Builder) (tree : Nat) (old new : DependencyID) : Builder :=
  {b with list := b.list.modify tree fun e =>
    {e with dependencies := e.dependencies.map fun id => if id = old then new else id}}

def pushEntry (b : Builder) (tree : Nat) (id : DependencyID) : Builder :=
  {b with list := b.list.modify tree fun e =>
    {e with
      dependencies := e.dependencies ++ [id]
      tree := {e.tree with dependencies.len := e.tree.dependencies.len + 1}}}

def pushTree (b : Builder) (parent : Option Nat) (dependencyId : Option DependencyID) : Builder :=
  {b with list := b.list ++ [⟨⟨b.list.length, dependencyId, parent, ⟨0, 0⟩⟩, []⟩]}

/-- Drops the last tree if nothing was placed in it. -/
def popEmpty (b : Builder) (id : Nat) : Builder :=
  if ((b.list[id]?).map (·.tree.dependencies.len)).getD 0 = 0 then {b with list := b.list.dropLast}
  else b

end Builder

/-- A computation that may run out of fuel, fail, or return. -/
abbrev Run (α : Type) := ExceptT SubtreeError Option α

def Run.outOfFuel {α : Type} : Run α := (none : Option (Except SubtreeError α))

def Run.of {α : Type} (r : Except SubtreeError α) : Run α := some r

/-! ### Placing one dependency -/

section Hoist
variable (lockfile : Lockfile) (method : BuilderMethod)

/-- A queued package is processed only if it has dependencies. -/
def Builder.enqueue (b : Builder) (pkgId : Option PackageID) (item : FillItem) : Builder :=
  match pkgId with
  | none => b
  | some pkg =>
    if 0 < (lockfile.resolutionList pkg).len then {b with queue := b.queue ++ [item]} else b

/-- What `hoist_dependency` does at an entry `depId` of the same name, in the folder `treeId`. -/
def meetEntry (asDefined : Bool) (b : Builder) (treeId : Nat) (packageId : Option PackageID)
    (inputDepId depId : DependencyID) : Except SubtreeError HoistDependencyResult :=
  let dependency := lockfile.dependency inputDepId
  let dep := lockfile.dependency depId
  match b.resolution depId, packageId with
  -- both optional peers will need to be resolved if they can resolve later
  | none, none => .ok .resolveLater
  | none, some _ => .ok (.resolveReplace treeId depId)
  | some resId, none => .ok (.resolve resId)
  | some resId, some pkgId =>
    if resId = pkgId then .ok .hoisted
    -- will only happen in workspaces and the root package
    else if asDefined && dep.behavior.dev != dependency.behavior.dev then .ok .hoisted
    else if dependency.behavior.peer && dependency.versionTag == .npm &&
        lockfile.resolutionTag resId == .npm && lockfile.satisfies inputDepId resId then .ok .hoisted
    -- root dependencies are manually chosen by the user
    else if dependency.behavior.peer && lockfile.isWorkspaceRootDependency depId then .ok .hoisted
    else if asDefined && !dep.behavior.peer then .error .dependencyLoop
    else .ok .dependencyLoop

/-- The first entry of a folder with the name of a dependency. -/
def Builder.find (b : Builder) (treeId : Nat) (hash : PackageNameHash) : Option DependencyID :=
  (b.entries treeId).find? fun id => (lockfile.dependency id).nameHash == hash

/-- The walk of `hoist_dependency`. Called on a new folder it is `asDefined`; a
conflict met higher up then leaves the dependency in that folder. -/
def hoistDependency (b : Builder) (hoistRootId : Option Nat) (packageId : Option PackageID)
    (inputDepId : DependencyID) : Nat → Bool → Nat → Run HoistDependencyResult
  | 0, _, _ => Run.outOfFuel
  | fuel + 1, asDefined, selfId =>
    match b.find lockfile selfId (lockfile.dependency inputDepId).nameHash with
    | some depId => Run.of (meetEntry lockfile asDefined b selfId packageId inputDepId depId)
    | none =>
      match b.parent selfId with
      | none => pure (.placement selfId false)
      | some parent =>
        if hoistRootId = some selfId then pure (.placement selfId false)
        else do
          let result ← hoistDependency b hoistRootId packageId inputDepId fuel false parent
          if asDefined && result == .dependencyLoop then pure (.placement selfId false)
          else pure result

/-- Bundled and folder dependencies stay in the folder they are defined in. -/
def findPlace (b : Builder) (nextId : Nat) (hoistRootId : Option Nat) (pkgId : Option PackageID)
    (depId : DependencyID) : Run HoistDependencyResult :=
  if (lockfile.dependency depId).behavior.bundled then pure (.placement nextId true)
  else if pkgId.any (lockfile.resolutionTag · == .folder) then pure (.placement nextId false)
  else hoistDependency lockfile b hoistRootId pkgId depId b.list.length true nextId

/-- Carries out what the walk found. -/
def Builder.settle (b : Builder) (hoistRootId : Option Nat) (pkgId : Option PackageID)
    (depId : DependencyID) : HoistDependencyResult → Builder
  | .dependencyLoop | .hoisted => b
  | .resolve resId => b.resolvePending (lockfile.dependency depId).nameHash depId resId
  | .resolveReplace treeId oldDepId =>
    match pkgId with
    | none => b
    | some pkg =>
      let b := b.resolvePending (lockfile.dependency depId).nameHash oldDepId pkg
      (b.replaceEntry treeId oldDepId depId).enqueue lockfile pkgId ⟨treeId, depId, hoistRootId⟩
  | .resolveLater => b.resolveLater (lockfile.dependency depId).nameHash depId
  | .placement treeId bundled =>
    -- if it's bundled, start a new hoist root
    (b.pushEntry treeId depId).enqueue lockfile pkgId
      ⟨treeId, depId, if bundled then some treeId else hoistRootId⟩

/-- One dependency of the package whose folder is `nextId`. -/
def processDependency (parentPkgId : PackageID) (nextId : Nat) (hoistRootId : Option Nat) (b : Builder)
    (depId : DependencyID) : Run Builder :=
  let pkgId := b.resolution depId
  let dependency := lockfile.dependency depId
  if method.skips lockfile depId parentPkgId pkgId then pure b
  else if !dependency.name.isEmpty && !isSafeInstallFolderName dependency.name then
    pure {b with log := b.log ++ [dependency.name]}
  -- skip unresolvable dependencies
  else if !dependency.behavior.bundled && pkgId.isNone && !dependency.behavior.isOptionalPeer then
    pure b
  else do
    let result ← findPlace lockfile b nextId hoistRootId pkgId depId
    pure (b.settle lockfile hoistRootId pkgId depId result)

/-! ### Building every tree -/

/-- The package a tree is made for. -/
def Builder.packageOf (b : Builder) : Option DependencyID → Option PackageID
  | none => some 0
  | some id => b.resolution id

/-- Makes the folder of a package and places its dependencies. -/
def processSubtree (self : Option Nat) (dependencyId : Option DependencyID) (hoistRootId : Option Nat)
    (b : Builder) : Run Builder :=
  match b.packageOf dependencyId with
  | none => pure b
  | some parentPkgId =>
    if (lockfile.resolutionList parentPkgId).len = 0 then pure b
    else do
      let nextId := b.list.length
      let b ← (lockfile.sortedDependencies parentPkgId).foldlM
        (processDependency lockfile method parentPkgId nextId hoistRootId)
        (b.pushTree self dependencyId)
      pure (b.popEmpty nextId)

/-- One turn of the loop: the first item of the queue. -/
def processItem (b : Builder) (item : FillItem) (queue : List FillItem) : Run Builder :=
  processSubtree lockfile method ((b.list[item.treeId]?).map (·.tree.id)) (some item.dependencyId)
    item.hoistRootId {b with queue := queue}

/-- This goes breadth-first. -/
def processQueue : Nat → Builder → Run Builder
  | 0, _ => Run.outOfFuel
  | fuel + 1, b =>
    match b.queue with
    | [] => pure b
    | item :: queue => do
      let b ← processItem lockfile method b item queue
      processQueue fuel b

/-- `buffers.trees`, `buffers.hoisted_dependencies` and `buffers.resolutions`. -/
structure Buffers where
  trees : List Tree
  hoistedDependencies : List DependencyID
  resolutions : List (Option PackageID)
  deriving DecidableEq

/-- One tree of `clean`: optional peers that never resolved are dropped. -/
def Builder.cleanTree (b : Builder) (buffers : Buffers) (e : BuilderEntry) : Buffers :=
  let kept := e.dependencies.filter fun id => (b.resolution id).isSome
  {buffers with
    trees := buffers.trees ++
      [{e.tree with dependencies := ⟨buffers.hoistedDependencies.length, kept.length⟩}]
    hoistedDependencies := buffers.hoistedDependencies ++ kept}

/-- Flattens the folders into one array. -/
def Builder.clean (b : Builder) : Buffers :=
  b.list.foldl b.cleanTree ⟨[], [], b.resolutions⟩

def Builder.init : Builder := ⟨[], lockfile.resolutions, [], fun _ => [], []⟩

/-- `Lockfile::hoist`, for at most `fuel` turns of the loop. -/
def hoist (fuel : Nat) : Run Buffers := do
  let b ← processSubtree lockfile method none none none (Builder.init lockfile)
  let b ← processQueue lockfile method fuel b
  pure b.clean

end Hoist
end Funbun.Install
