import Funbun.Semver.Version

/-! What a package was resolved to. -/
namespace Funbun.Install
open Semver

structure Repository where
  owner : SemverString
  repo : SemverString
  committish : SemverString
  resolved : SemverString
  deriving DecidableEq

namespace Repository

def order (r r' : Repository) (buf : List UInt8) : Ordering :=
  match r.owner.order r'.owner buf with
  | .eq =>
    match r.repo.order r'.repo buf with
    | .eq => r.committish.order r'.committish buf
    | notEqual => notEqual
  | notEqual => notEqual

/-- By the commit, if that of both is known. -/
def eql (r r' : Repository) (buf : List UInt8) : Bool :=
  if !r.owner.eql r'.owner buf then false
  else if !r.repo.eql r'.repo buf then false
  else if r.resolved.isEmpty || r'.resolved.isEmpty then r.committish.eql r'.committish buf
  else r.resolved.eql r'.resolved buf

end Repository

/-- `TaggedValue`, less the URL that a version comes with, which is not compared. -/
inductive Resolution where
  | uninitialized
  | root
  | npm (version : Version)
  | folder (path : SemverString)
  | localTarball (path : SemverString)
  | github (repository : Repository)
  | git (repository : Repository)
  | symlink (path : SemverString)
  | workspace (path : SemverString)
  | remoteTarball (url : SemverString)
  | singleFileModule (path : SemverString)
  deriving DecidableEq

namespace Resolution

def tag : Resolution → Nat
  | uninitialized => 0
  | root => 1
  | npm _ => 2
  | folder _ => 4
  | localTarball _ => 8
  | github _ => 16
  | git _ => 32
  | symlink _ => 64
  | workspace _ => 72
  | remoteTarball _ => 80
  | singleFileModule _ => 100

def order (r r' : Resolution) (buf : List UInt8) : Ordering :=
  match r, r' with
  | npm v, npm v' => v.order v' buf
  | localTarball s, localTarball s' | folder s, folder s' | remoteTarball s, remoteTarball s' | workspace s, workspace s'
  | symlink s, symlink s' | singleFileModule s, singleFileModule s' => s.order s' buf
  | git p, git p' | github p, github p' => p.order p' buf
  | r, r' => compare r.tag r'.tag

/-- Two of nothing are not compared: that is a panic. -/
def eql (r r' : Resolution) (buf : List UInt8) : Option Bool :=
  match r, r' with
  | root, root => some true
  | npm v, npm v' => some (v.eql v')
  | localTarball s, localTarball s' | folder s, folder s' | remoteTarball s, remoteTarball s' | workspace s, workspace s'
  | symlink s, symlink s' | singleFileModule s, singleFileModule s' => some (s.eql s' buf)
  | git p, git p' | github p, github p' => some (p.eql p' buf)
  | uninitialized, uninitialized => none
  | _, _ => some false

end Resolution

end Funbun.Install
