import Funbun.Semver.StringBuilder

/-! Versions and their order.

The parts of a pre-release are numbers or texts, and numbers come first. Builds are compared by their hashes before they
are by their bytes. Equality of versions looks at the hash of the pre-release only. -/
namespace Funbun.Semver

def SemverString.isEmpty (s : SemverString) : Bool := s.bytes.all (· == 0)

/-- `order` of strings, by bytes -/
def SemverString.order (s s' : SemverString) (buf : List UInt8) : Ordering := compare (s.slice buf) (s'.slice buf)

def SemverString.isInline (s : SemverString) : Bool := (s.bytes.getD 7 0).toNat &&& 0x80 == 0

/-- A place outside of the buffer equals nothing. -/
def SemverString.eql (s s' : SemverString) (buf : List UInt8) : Bool :=
  if s.isInline && s'.isInline then s.bytes == s'.bytes
  else if s.isInline != s'.isInline then false
  else
    s.ptr.off + s.ptr.len ≤ buf.length && s'.ptr.off + s'.ptr.len ≤ buf.length &&
      (buf.drop s.ptr.off).take s.ptr.len == (buf.drop s'.ptr.off).take s'.ptr.len

structure ExternalString where
  value : SemverString
  hash : UInt64
  deriving DecidableEq

namespace ExternalString

def isEmpty (s : ExternalString) : Bool := s.value.isEmpty

def order (s s' : ExternalString) (buf : List UInt8) : Ordering :=
  if s.hash = s'.hash ∧ 0 < s.hash then .eq else s.value.order s'.value buf

end ExternalString

/-! ### Numbers -/

/-- A digit, or a separator between digits, for which nothing is added. -/
def parseDigits : Nat → List UInt8 → Option Nat
  | acc, [] => some acc
  | acc, c :: rest =>
    if c = 95 then parseDigits acc rest
    else if 48 ≤ c ∧ c ≤ 57 then parseDigits (acc * 10 + (c.toNat - 48)) rest
    else none

/-- `parse_unsigned` of 64 bits: what does not fit is no number. -/
def parseAscii (digits : List UInt8) : Option Nat :=
  if digits = [] ∨ digits.head? = some 95 ∨ digits.getLast? = some 95 then none
  else (parseDigits 0 digits).bind fun n => if n < UInt64.size then some n else none

/-! ### Tags -/

structure Tag where
  pre : ExternalString
  build : ExternalString
  deriving DecidableEq

namespace Tag

def hasPre (t : Tag) : Bool := !t.pre.isEmpty

/-- One part of a pre-release. A part that is no number is greater than one that is. -/
def orderPart (lhs rhs : List UInt8) : Ordering :=
  match parseAscii lhs, parseAscii rhs with
  | some _, none => .lt
  | none, some _ => .gt
  | none, none => compare lhs rhs
  | some m, some n => compare m n

/-- The loop over the parts -/
def orderParts : List (List UInt8) → List (List UInt8) → Ordering
  | [], [] => .eq
  | _ :: _, [] => .gt
  | [], _ :: _ => .lt
  | lhs :: lhsRest, rhs :: rhsRest =>
    match orderPart lhs rhs with
    | .eq => orderParts lhsRest rhsRest
    | notEqual => notEqual

/-- Split at dots -/
def preParts (t : Tag) (buf : List UInt8) : List (List UInt8) := (t.pre.value.slice buf).splitOn 46

def orderPre (t t' : Tag) (buf : List UInt8) : Ordering := orderParts (t.preParts buf) (t'.preParts buf)

def order (t t' : Tag) (buf : List UInt8) : Ordering :=
  if !t.pre.isEmpty && !t'.pre.isEmpty then t.orderPre t' buf
  else
    match t.pre.order t'.pre buf with
    | .eq => t.build.order t'.build buf
    | notEqual => notEqual

def eql (t t' : Tag) : Bool := t.pre.hash == t'.pre.hash

end Tag

structure Version where
  major : UInt64
  minor : UInt64
  patch : UInt64
  tag : Tag
  deriving DecidableEq

namespace Version

def eql (v v' : Version) : Bool :=
  v.major == v'.major && v.minor == v'.minor && v.patch == v'.patch && v'.tag.eql v.tag

def orderWithoutTag (lhs rhs : Version) : Ordering :=
  if lhs.major < rhs.major then .lt
  else if rhs.major < lhs.major then .gt
  else if lhs.minor < rhs.minor then .lt
  else if rhs.minor < lhs.minor then .gt
  else if lhs.patch < rhs.patch then .lt
  else if rhs.patch < lhs.patch then .gt
  else if lhs.tag.hasPre then if !rhs.tag.hasPre then .lt else .eq
  else if rhs.tag.hasPre then .gt else .eq

def order (v v' : Version) (buf : List UInt8) : Ordering :=
  match v.orderWithoutTag v' with
  | .eq => v.tag.order v'.tag buf
  | notEqual => notEqual

end Version

end Funbun.Semver
