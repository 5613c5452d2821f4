import Funbun.Semver.Parse

/-! Ranges of versions.

A comparator token and a version that may miss components become a range of at most two comparators. A pre-release is in
a list of ranges only if one of them names a pre-release of the same version. -/
namespace Funbun.Semver

/-! ### Order -/

/-- Strings in two buffers -/
def SemverString.orderIn (s s' : SemverString) (lhsBuf rhsBuf : List UInt8) : Ordering :=
  compare (s.slice lhsBuf) (s'.slice rhsBuf)

def ExternalString.orderIn (s s' : ExternalString) (lhsBuf rhsBuf : List UInt8) : Ordering :=
  if s.hash = s'.hash ∧ 0 < s.hash then .eq else s.value.orderIn s'.value lhsBuf rhsBuf

namespace Tag

def orderPreIn (t t' : Tag) (lhsBuf rhsBuf : List UInt8) : Ordering := orderParts (t.preParts lhsBuf) (t'.preParts rhsBuf)

def orderIn (t t' : Tag) (lhsBuf rhsBuf : List UInt8) : Ordering :=
  if !t.pre.isEmpty && !t'.pre.isEmpty then t.orderPreIn t' lhsBuf rhsBuf
  else
    match t.pre.orderIn t'.pre lhsBuf rhsBuf with
    | .eq => t.build.orderIn t'.build lhsBuf rhsBuf
    | notEqual => notEqual

def orderWithoutBuild (t t' : Tag) (lhsBuf rhsBuf : List UInt8) : Ordering :=
  if !t.pre.isEmpty && !t'.pre.isEmpty then t.orderPreIn t' lhsBuf rhsBuf
  else t.pre.orderIn t'.pre lhsBuf rhsBuf

end Tag

namespace Version

def orderIn (v v' : Version) (lhsBuf rhsBuf : List UInt8) : Ordering :=
  match v.orderWithoutTag v' with
  | .eq => v.tag.orderIn v'.tag lhsBuf rhsBuf
  | notEqual => notEqual

def orderWithoutBuild (v v' : Version) (lhsBuf rhsBuf : List UInt8) : Ordering :=
  match v.orderWithoutTag v' with
  | .eq => v.tag.orderWithoutBuild v'.tag lhsBuf rhsBuf
  | notEqual => notEqual

/-- `Version::default` -/
def zero : Version := ⟨0, 0, 0, .empty⟩

end Version

/-! ### Comparators -/

inductive Op where
  | unset | eql | lt | lte | gt | gte
  deriving DecidableEq

structure Comparator where
  op : Op
  version : Version
  deriving DecidableEq

def Comparator.unset : Comparator := ⟨.unset, .zero⟩

def Comparator.satisfies (c : Comparator) (version : Version) (comparatorBuf versionBuf : List UInt8) : Bool :=
  match version.orderWithoutBuild c.version versionBuf comparatorBuf with
  | .eq => c.op = .lte || c.op = .gte || c.op = .eql
  | .gt => c.op = .gt || c.op = .gte
  | .lt => c.op = .lt || c.op = .lte

structure Range where
  left : Comparator
  right : Comparator
  deriving DecidableEq

namespace Range

def unset : Range := ⟨.unset, .unset⟩

/-- A range of one comparator -/
def only (op : Op) (version : Version) : Range := ⟨⟨op, version⟩, .unset⟩

def hasLeft (r : Range) : Bool := r.left.op ≠ .unset

def hasRight (r : Range) : Bool := r.right.op ≠ .unset

/-- `saturating_add(1)` -/
def saturatingSucc (n : UInt64) : UInt64 := if n = .ofNat (UInt64.size - 1) then n else n + 1

def maxU64 : UInt64 := .ofNat (UInt64.size - 1)

def initWildcard (version : Version) : Wildcard → Range
  | .none => only .eql version
  | .major => only .gte .zero
  | .minor =>
    ⟨⟨.lt, {Version.zero with major := saturatingSucc version.major}⟩, ⟨.gte, {Version.zero with major := version.major}⟩⟩
  | .patch =>
    ⟨⟨.lt, {Version.zero with major := version.major, minor := saturatingSucc version.minor}⟩,
      ⟨.gte, {Version.zero with major := version.major, minor := version.minor}⟩⟩

def satisfies (r : Range) (version : Version) (rangeBuf versionBuf : List UInt8) : Bool :=
  !r.hasLeft ||
    r.left.satisfies version rangeBuf versionBuf && (!r.hasRight || r.right.satisfies version rangeBuf versionBuf)

/-- The comparator names a pre-release of the version. -/
def matchesPre (c : Comparator) (version : Version) : Bool :=
  c.version.tag.hasPre && version.patch == c.version.patch && version.minor == c.version.minor &&
    version.major == c.version.major

/-- With whether a range matched so far -/
def satisfiesPre (r : Range) (version : Version) (rangeBuf versionBuf : List UInt8) (preMatched : Bool) : Bool × Bool :=
  if !r.hasLeft then (true, preMatched)
  else
    (r.left.satisfies version rangeBuf versionBuf && (!r.hasRight || r.right.satisfies version rangeBuf versionBuf),
      preMatched || matchesPre r.left version || r.hasRight && matchesPre r.right version)

end Range

/-! ### Tokens -/

inductive TokenTag where
  | none | gt | gte | lt | lte | version | tilda | caret
  deriving DecidableEq

structure Token where
  tag : TokenTag
  wildcard : Wildcard
  deriving DecidableEq

namespace Token
open Range (saturatingSucc maxU64)

def caretRange (version : PartialVersion) : Range :=
  match version.major with
  | none => .unset
  | some major =>
    let left := {Version.zero with major}
    match version.minor with
    | none => ⟨⟨.gte, left⟩, ⟨.lt, {Version.zero with major := saturatingSucc major}⟩⟩
    | some minor =>
      let left := {left with minor}
      match version.patch with
      | some patch =>
        let left := {left with patch, tag := version.tag}
        if major = 0 then
          if minor = 0 then ⟨⟨.gte, left⟩, ⟨.lt, {Version.zero with patch := saturatingSucc patch}⟩⟩
          else ⟨⟨.gte, left⟩, ⟨.lt, {Version.zero with minor := saturatingSucc minor}⟩⟩
        else ⟨⟨.gte, left⟩, ⟨.lt, {Version.zero with major := saturatingSucc major}⟩⟩
      | none =>
        if major = 0 then ⟨⟨.gte, left⟩, ⟨.lt, {Version.zero with minor := saturatingSucc minor}⟩⟩
        else ⟨⟨.gte, left⟩, ⟨.lt, {Version.zero with major := saturatingSucc major}⟩⟩

def tildaRange (version : PartialVersion) : Range :=
  match version.major with
  | none => .unset
  | some major =>
    let left := {Version.zero with major}
    match version.minor with
    | none => ⟨⟨.gte, left⟩, ⟨.lt, {Version.zero with major := saturatingSucc major}⟩⟩
    | some minor =>
      let left := {left with minor}
      let left :=
        match version.patch with
        | some patch => {left with patch, tag := version.tag}
        | none => left
      ⟨⟨.gte, left⟩, ⟨.lt, {Version.zero with major, minor := saturatingSucc minor}⟩⟩

def toRange (t : Token) (version : PartialVersion) : Checked Range :=
  match t.tag with
  | .caret => .ok (caretRange version)
  | .tilda => .ok (tildaRange version)
  | .none => .error .unreachable
  | .version => .ok (if t.wildcard ≠ .none then .initWildcard version.min t.wildcard else .only .eql version.min)
  | .gt | .gte | .lt | .lte =>
    match t.wildcard with
    | .major => .ok ⟨⟨.gte, version.min⟩, ⟨.lte, {Version.zero with major := maxU64, minor := maxU64, patch := maxU64}⟩⟩
    | .minor =>
      let major := version.major.getD 0
      match t.tag with
      | .lte => .ok (.only .lte {Version.zero with major, minor := maxU64, patch := maxU64})
      | .lt => .ok (.only .lt {Version.zero with major})
      | .gt => .ok (.only .gt {Version.zero with major, minor := maxU64, patch := maxU64})
      | .gte => .ok (.only .gte {Version.zero with major})
      | _ => .error .unreachable
    | .patch =>
      let major := version.major.getD 0
      let minor := version.minor.getD 0
      match t.tag with
      | .lte => .ok (.only .lte {Version.zero with major, minor, patch := maxU64})
      | .lt => .ok (.only .lt {Version.zero with major, minor})
      | .gt => .ok (.only .gt {Version.zero with major, minor, patch := maxU64})
      | .gte => .ok (.only .gte {Version.zero with major, minor})
      | _ => .error .unreachable
    | .none =>
      match t.tag with
      | .gt => .ok (.only .gt version.min)
      | .gte => .ok (.only .gte version.min)
      | .lt => .ok (.only .lt version.min)
      | .lte => .ok (.only .lte version.min)
      | _ => .error .unreachable

end Token

end Funbun.Semver
