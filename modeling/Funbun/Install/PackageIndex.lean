import Funbun.Install.Resolution
import Funbun.Library.Descending
import Mathlib.Logic.Function.Basic

/-! The index of packages by name.

A name has one package, or a list of them from the greatest resolution down. Packages are appended in three ways, one of
which looks for an equal package first. -/
namespace Funbun.Install.PackageIndex
open Semver Library.Descending

/-- `id` is of the metadata. -/
structure Package where
  nameHash : UInt64
  resolution : Resolution
  id : Nat

inductive PackageIndexEntry where
  | id (id : Nat)
  | ids (ids : List Nat)

/-- The ids that a lookup goes through. -/
def PackageIndexEntry.toList : PackageIndexEntry → List Nat
  | id i => [i]
  | ids is => is

structure Lockfile where
  packages : List Package
  packageIndex : UInt64 → Option PackageIndexEntry
  stringBytes : List UInt8
  loadedPackageCount : Nat
  exactPinned : Nat → Bool

namespace Lockfile
variable (s : Lockfile)

def resolutions (i : Nat) : Resolution := (s.packages[i]?.map Package.resolution).getD .uninitialized

/-! ### Lookups -/

/-- A range takes what satisfies it, but not a lower major version that another range brought in. -/
def trySatisfiesDedupe (npmVersion : Option (Version → Bool)) (resolution : Resolution) (i : Nat) : Bool :=
  match s.resolutions i, npmVersion with
  | .npm existing, some satisfies =>
    if !satisfies existing then false
    else if s.loadedPackageCount ≤ i && !s.exactPinned i then
      match resolution with
      | .npm floor => !(existing.order floor s.stringBytes == .lt && existing.major != floor.major)
      | _ => true
    else true
  | _, _ => false

def findId (npmVersion : Option (Version → Bool)) (resolution : Resolution) : List Nat → Option (Option Nat)
  | [] => some none
  | i :: rest => do
    if ← (s.resolutions i).eql resolution s.stringBytes then some (some i)
    else if s.trySatisfiesDedupe npmVersion resolution i then some (some i)
    else findId npmVersion resolution rest

/-- `get_package_id`, for a range that is not looked into. Nothing at all is a panic. -/
def getPackageId (nameHash : UInt64) (npmVersion : Option (Version → Bool)) (resolution : Resolution) :
    Option (Option Nat) :=
  match s.packageIndex nameHash with
  | none => some none
  | some entry => s.findId npmVersion resolution entry.toList

/-! ### Appending -/

def setEntry (nameHash : UInt64) (entry : PackageIndexEntry) : Lockfile :=
  {s with packageIndex := Function.update s.packageIndex nameHash (some entry)}

/-- `packages.append`, of a package whose id is set -/
def append (package : Package) (i : Nat) : Lockfile := {s with packages := s.packages ++ [{package with id := i}]}

def isGreater (resolution : Resolution) (existingId : Nat) : Bool :=
  resolution.order (s.resolutions existingId) s.stringBytes == .gt

/-- Two packages make a list. -/
def pair (resolution : Resolution) (i existingId : Nat) : List Nat :=
  if s.isGreater resolution existingId then [i, existingId] else [existingId, i]

/-- The first of the existing packages that equals -/
def findEql (resolution : Resolution) : List Nat → Option (Option Nat)
  | [] => some none
  | existingId :: rest => do
    if ← resolution.eql (s.resolutions existingId) s.stringBytes then some (some existingId)
    else findEql resolution rest

/-- An id has 32 bits. -/
def newId : Option Nat := if s.packages.length < UInt32.size then some s.packages.length else none

def appendPackageDedupe (package : Package) : Option (Nat × Lockfile) :=
  match s.packageIndex package.nameHash with
  | none => do
    let newId ← s.newId
    some (newId, (s.append package newId).setEntry package.nameHash (.id newId))
  | some (.id existingId) => do
    if ← package.resolution.eql (s.resolutions existingId) s.stringBytes then some (existingId, s)
    else
      let newId ← s.newId
      let s := s.append package newId
      some (newId, s.setEntry package.nameHash (.ids (s.pair package.resolution newId existingId)))
  | some (.ids existingIds) => do
    match ← s.findEql package.resolution existingIds with
    | some existingId => some (existingId, s)
    | none =>
      let newId ← s.newId
      let s := s.append package newId
      some (newId, s.setEntry package.nameHash (.ids (insertAbove (s.isGreater package.resolution) newId existingIds)))

def getOrPutId (i : Nat) (nameHash : UInt64) : Lockfile :=
  match s.packageIndex nameHash with
  | none => s.setEntry nameHash (.id i)
  | some (.id existingId) => s.setEntry nameHash (.ids (s.pair (s.resolutions i) i existingId))
  | some (.ids existingIds) => s.setEntry nameHash (.ids (insertAbove (s.isGreater (s.resolutions i)) i existingIds))

def appendPackageWithId (package : Package) (i : Nat) : Lockfile := (s.append package i).getOrPutId i package.nameHash

/-- The number of packages is cut to 32 bits. -/
def appendPackage (package : Package) : Lockfile := s.appendPackageWithId package (s.packages.length % UInt32.size)

end Lockfile

/-! ### Runs -/

inductive Call where
  | appendPackageDedupe (package : Package)
  | appendPackage (package : Package)
  | appendPackageWithId (package : Package) (id : Nat)

/-- An id is the next index. -/
def Call.Fits (s : Lockfile) : Call → Prop
  | appendPackageDedupe _ => True
  | appendPackage _ => s.packages.length < UInt32.size
  | appendPackageWithId _ i => i = s.packages.length ∧ i < UInt32.size

def Lockfile.call (s : Lockfile) : Call → Option Lockfile
  | .appendPackageDedupe package => (s.appendPackageDedupe package).map Prod.snd
  | .appendPackage package => some (s.appendPackage package)
  | .appendPackageWithId package i => some (s.appendPackageWithId package i)

def Lockfile.empty (stringBytes : List UInt8) (loadedPackageCount : Nat) (exactPinned : Nat → Bool) : Lockfile :=
  ⟨[], fun _ => none, stringBytes, loadedPackageCount, exactPinned⟩

/-- The states of all sequences of calls -/
inductive Reached : Lockfile → Prop where
  | start (stringBytes : List UInt8) (loadedPackageCount : Nat) (exactPinned : Nat → Bool) :
    Reached (.empty stringBytes loadedPackageCount exactPinned)
  | call {s s' : Lockfile} (c : Call) : Reached s → c.Fits s → s.call c = some s' → Reached s'

end Funbun.Install.PackageIndex
