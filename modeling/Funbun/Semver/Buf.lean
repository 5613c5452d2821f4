import Funbun.Semver.Range

/-! Strings that are put behind each other into a buffer that grows, with one handle for each hash. -/
namespace Funbun.Semver

namespace SemverString

/-- Of no more than eight bytes -/
def initInline (in_ : List UInt8) : SemverString := ⟨(in_ ++ .replicate 8 0).take 8, by simp⟩

/-- The bytes go behind those that are there, and the buffer is then at `addr`. -/
def initAppend (addr : Nat) (buf in_ : List UInt8) : List UInt8 × SemverString :=
  let items := buf ++ in_
  (items, packed addr ⟨addr + (items.length - in_.length), in_⟩)

/-- `eql` of strings in two buffers -/
def eqlIn (s that : SemverString) (thisBuf thatBuf : List UInt8) : Bool :=
  if s.isInline && that.isInline then s.bytes == that.bytes
  else if s.isInline != that.isInline then false
  else
    s.ptr.off + s.ptr.len ≤ thisBuf.length && that.ptr.off + that.ptr.len ≤ thatBuf.length &&
      (thisBuf.drop s.ptr.off).take s.ptr.len == (thatBuf.drop that.ptr.off).take that.ptr.len

end SemverString

structure Buf where
  bytes : List UInt8
  pool : List (UInt64 × SemverString)

namespace Buf

/-- What the pool has for the hash is returned, whatever it is of. -/
def appendWithHash (b : Buf) (addr : Nat) (str : List UInt8) (hash : UInt64) : Buf × SemverString :=
  if SemverString.canInline str then (b, .initInline str)
  else
    match b.pool.lookup hash with
    | some value => (b, value)
    | none =>
      let (bytes, new) := SemverString.initAppend addr b.bytes str
      (⟨bytes, (hash, new) :: b.pool⟩, new)

def appendExternalWithHash (b : Buf) (addr : Nat) (str : List UInt8) (hash : UInt64) : Buf × ExternalString :=
  let (b, value) := b.appendWithHash addr str hash
  (b, ⟨value, hash⟩)

section Append
variable (stringHash : List UInt8 → UInt64)

def append (b : Buf) (addr : Nat) (str : List UInt8) : Buf × SemverString := b.appendWithHash addr str (stringHash str)

def appendExternal (b : Buf) (addr : Nat) (str : List UInt8) : Buf × ExternalString :=
  b.appendExternalWithHash addr str (stringHash str)

end Append

end Buf

/-! ### Runs -/

/-- How a string is stored -/
inductive Store where
  | append (str : List UInt8)
  | appendExternal (str : List UInt8)
  /-- `String::init` of a slice of the buffer -/
  | init (off len : Nat)

/-- The bytes that were stored, and the handle that stands for them -/
structure Held where
  text : List UInt8
  handle : SemverString

structure Storage where
  buf : Buf
  held : List Held

namespace Storage
variable (stringHash : List UInt8 → UInt64)

/-- A buffer that no string was appended to yet -/
def ofBytes (bytes : List UInt8) : Storage := ⟨⟨bytes, []⟩, []⟩

/-- The buffer is at `addr`. -/
def store (st : Storage) (addr : Nat) : Store → Storage
  | .append str =>
    let (buf, handle) := st.buf.append stringHash addr str
    ⟨buf, ⟨str, handle⟩ :: st.held⟩
  | .appendExternal str =>
    let (buf, external) := st.buf.appendExternal stringHash addr str
    ⟨buf, ⟨str, external.value⟩ :: st.held⟩
  | .init off len =>
    let in_ := (st.buf.bytes.drop off).take len
    {st with held := ⟨in_, .init addr ⟨addr + off, in_⟩⟩ :: st.held}

def run (st : Storage) (stores : List (Nat × Store)) : Storage := stores.foldl (fun st s => st.store stringHash s.1 s.2) st

end Storage

end Funbun.Semver
