import Funbun.Library.Bytes

/-! Strings of eight bytes.

A short string is its own bytes. A longer one is a place in a buffer: the builder counts the strings first, so that
the buffer is large enough, and keeps one place for each hash. Where a string lies in memory is its address. -/
namespace Funbun.Semver
open Library

/-- Bytes in memory -/
structure Slice where
  addr : Nat
  bytes : List UInt8

structure Pointer where
  off : Nat
  len : Nat

/-- Addresses wrap, and an offset has 32 bits. -/
def Pointer.init (buf : Nat) (in_ : Slice) : Pointer where
  off := ((in_.addr - buf : Int) % UInt32.size).toNat
  len := in_.bytes.length % UInt32.size

def Pointer.toBits (p : Pointer) : Nat := ofLeBytes (leBytes 4 p.off ++ leBytes 4 p.len)

def Pointer.fromBits (bits : Nat) : Pointer :=
  ⟨ofLeBytes ((leBytes 8 bits).take 4), ofLeBytes ((leBytes 8 bits).drop 4)⟩

structure SemverString where
  bytes : List UInt8
  length : bytes.length = 8
  deriving DecidableEq

namespace SemverString

def maxInlineLen : Nat := 8

def maxAddressableSpaceMask : Nat := 1 <<< 63 - 1

def canInline (buf : List UInt8) : Bool :=
  if buf.length < maxInlineLen then true
  else if buf.length = maxInlineLen then (buf.getD 7 0).toNat &&& 0x80 == 0
  else false

/-- With the last bit set -/
def packed (buf : Nat) (in_ : Slice) : SemverString where
  bytes := leBytes 8 ((Pointer.init buf in_).toBits &&& maxAddressableSpaceMask ||| 1 <<< 63)
  length := length_leBytes 8 _

/-- `buf` is the address of the buffer. -/
def init (buf : Nat) (in_ : Slice) : SemverString :=
  if h : in_.bytes.length < maxInlineLen then
    ⟨in_.bytes ++ .replicate (maxInlineLen - in_.bytes.length) 0, by
      rw [List.length_append, List.length_replicate]
      exact Nat.add_sub_cancel' (Nat.le_of_lt h)⟩
  else if h : in_.bytes.length = maxInlineLen ∧ (in_.bytes.getD 7 0).toNat < 128 then ⟨in_.bytes, h.1⟩
  else packed buf in_

def ptr (s : SemverString) : Pointer := .fromBits (ofLeBytes s.bytes &&& maxAddressableSpaceMask)

/-- A place outside of the buffer is empty. -/
def slice (s : SemverString) (buf : List UInt8) : List UInt8 :=
  if (s.bytes.getD 7 0).toNat &&& 128 = 0 then s.bytes.takeWhile (· != 0)
  else if s.ptr.off + s.ptr.len ≤ buf.length then (buf.drop s.ptr.off).take s.ptr.len
  else []

end SemverString

open SemverString (maxInlineLen)

/-- `ptr` is the buffer once it is allocated. -/
structure Builder where
  len : Nat
  cap : Nat
  ptr : Option (List UInt8)
  stringPool : List (UInt64 × SemverString)

namespace Builder

def empty : Builder := ⟨0, 0, none, []⟩

def countWithHash (b : Builder) (slice_ : List UInt8) (hash : UInt64) : Builder :=
  if slice_.length ≤ maxInlineLen then b
  else if (b.stringPool.lookup hash).isSome then b
  else {b with cap := b.cap + slice_.length}

/-- The hash of a string is a function that is not looked into. -/
def count (stringHash : List UInt8 → UInt64) (b : Builder) (slice_ : List UInt8) : Builder :=
  b.countWithHash slice_ (if maxInlineLen ≤ slice_.length then stringHash slice_ else UInt64.ofNat (UInt64.size - 1))

def allocate (b : Builder) : Builder := {b with ptr := some (.replicate b.cap 0)}

/-- It panics when nothing is allocated, and so does all that writes. -/
def allocatedSlice (b : Builder) : Option (List UInt8) := if 0 < b.cap then b.ptr.map (·.take b.cap) else some []

section Append
variable (buf : Nat) (b : Builder) (slice_ : Slice)

/-- The bytes go behind those that are there. Outside of the buffer it panics. -/
def write : Option (Builder × SemverString) := do
  let ptr ← b.ptr
  if b.cap ≤ ptr.length ∧ b.len ≤ b.cap ∧ slice_.bytes.length ≤ b.cap - b.len then
    some
      ({ b with
          ptr := some (ptr.take b.len ++ slice_.bytes ++ ptr.drop (b.len + slice_.bytes.length))
          len := b.len + slice_.bytes.length },
        .init buf ⟨buf + b.len, slice_.bytes⟩)
  else none

def appendWithoutPool : Option (Builder × SemverString) :=
  if slice_.bytes.length ≤ maxInlineLen then b.allocatedSlice.map fun _ => (b, .init buf slice_)
  else b.write buf slice_

def appendWithHash (hash : UInt64) : Option (Builder × SemverString) :=
  if slice_.bytes.length ≤ maxInlineLen then b.allocatedSlice.map fun _ => (b, .init buf slice_)
  else
    match b.stringPool.lookup hash with
    | some value => do
      let ptr ← b.ptr
      if value.slice (ptr.take b.cap) ≠ slice_.bytes then b.appendWithoutPool buf slice_ else some (b, value)
    | none => do
      let (b, value) ← b.write buf slice_
      some ({b with stringPool := (hash, value) :: b.stringPool}, value)

def append (stringHash : List UInt8 → UInt64) : Option (Builder × SemverString) :=
  b.appendWithHash buf slice_ (stringHash slice_.bytes)

end Append

/-- All strings in order -/
def appendAll (buf : Nat) (stringHash : List UInt8 → UInt64) : Builder → List Slice → Option (Builder × List SemverString)
  | b, [] => some (b, [])
  | b, slice_ :: slices => do
    let (b, value) ← b.append buf slice_ stringHash
    let (b, values) ← appendAll buf stringHash b slices
    some (b, value :: values)

end Builder

end Funbun.Semver
