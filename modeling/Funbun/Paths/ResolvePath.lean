import Funbun.Library.Cancelling
import Funbun.Library.CheckedLoop

/-! Normalising a path, with `/` between the components of the result. -/
namespace Funbun.Paths
open Library

def dot : UInt8 := '.'.toUInt8

/-- The separator that is written -/
def separator : UInt8 := '/'.toUInt8

/-- `is_dotdot_with_type` -/
def isDotdotWithType (slice : List UInt8) : Bool := slice.take 2 = [dot, dot]

/-- The index `r` into the path, the index `buf_i` into the buffer, and the place behind the last `..` that was written -/
structure Scan where
  r : Nat
  bufI : Nat
  dotdot : Nat
  buf : List UInt8

section
variable (allowAboveRoot : Bool) (isSeparator : UInt8 → Bool) (path : List UInt8)

/-- The end of the path, or a separator -/
def endsAt (i : Nat) : Bool := i = path.length || (path[i]?).any isSeparator

/-- `while buf_i > dotdot && !is_separator(buf[buf_i])` -/
def toLastSeparator (buf : List UInt8) (dotdot : Nat) : Nat → Checked Nat
  | 0 => .ok 0
  | i + 1 =>
    if dotdot < i + 1 then indexAt buf (i + 1) >>= fun c => if isSeparator c then .ok (i + 1) else toLastSeparator buf dotdot i
    else .ok (i + 1)

/-- A `..` removes what is behind the last separator, or is written itself. -/
def parentElement (s : Scan) : Checked Scan :=
  if s.dotdot < s.bufI then
    toLastSeparator isSeparator s.buf s.dotdot (s.bufI - 1) >>= fun i => .ok { s with bufI := i }
  else if allowAboveRoot then
    if 0 < s.bufI then
      writeAt s.buf s.bufI [separator, dot, dot] >>= fun buf => .ok { s with buf, bufI := s.bufI + 3, dotdot := s.bufI + 3 }
    else writeAt s.buf s.bufI [dot, dot] >>= fun buf => .ok { s with buf, bufI := s.bufI + 2, dotdot := s.bufI + 2 }
  else .ok s

/-- The separator before an element, where one is needed -/
def addSeparator (s : Scan) : Checked Scan :=
  if s.bufI = 0 then .ok s
  else
    indexAt s.buf (s.bufI - 1) >>= fun c =>
    if isSeparator c then .ok s else writeAt s.buf s.bufI [separator] >>= fun buf => .ok { s with buf, bufI := s.bufI + 1 }

def realElement (s : Scan) : Checked Scan :=
  let element := (path.drop s.r).takeWhile fun c => !isSeparator c
  addSeparator isSeparator s >>= fun t =>
  writeAt t.buf t.bufI element >>= fun buf =>
  .ok { t with buf, r := s.r + element.length, bufI := t.bufI + element.length }

/-- The turn of `while r < n` -/
def turn (s : Scan) : Checked (Turn Scan Scan) :=
  if s.r < path.length then
    indexAt path s.r >>= fun c =>
    if isSeparator c then .ok (.next { s with r := s.r + 1 })
    else if c = dot ∧ endsAt isSeparator path (s.r + 1) then .ok (.next { s with r := s.r + 1 })
    else if isDotdotWithType (path.drop s.r) ∧ endsAt isSeparator path (s.r + 2) then
      parentElement allowAboveRoot isSeparator { s with r := s.r + 2 } >>= fun s => .ok (.next s)
    else realElement isSeparator path s >>= fun s => .ok (.next s)
  else .ok (.done s)

/-- The trailing slash of the path, if there was one -/
def trailingSlash (s : Scan) : Checked Scan :=
  if s.bufI = 0 then .ok s
  else
    indexAt path (path.length - 1) >>= fun last =>
    if last ≠ separator then .ok s
    else
      indexAt s.buf (s.bufI - 1) >>= fun c =>
      if c = separator then .ok s else writeAt s.buf s.bufI [separator] >>= fun buf => .ok { s with buf, bufI := s.bufI + 1 }

variable (preserveTrailingSlash zeroTerminate : Bool)

/-- `normalize_string_generic_tz` for the separator `/`, for which a path has no volume. The result is the front of the
buffer. -/
def normalizeStringGenericTz (buf : List UInt8) : Checked (List UInt8 × List UInt8) :=
  loop (turn allowAboveRoot isSeparator path) (path.length + 1) ⟨0, 0, 0, buf⟩ >>= fun s =>
  (if preserveTrailingSlash then trailingSlash path s else .ok s) >>= fun s =>
  (if zeroTerminate then writeAt s.buf s.bufI [0] else .ok s.buf) >>= fun buf =>
  .ok (buf.take s.bufI, buf)

end

/-! ### What a path means -/

def dotdot : List UInt8 := [dot, dot]

/-- The components of a path that say something -/
def components (isSeparator : UInt8 → Bool) (path : List UInt8) : List (List UInt8) :=
  (path.splitOnP isSeparator).filter fun c => c ≠ [] ∧ c ≠ [dot]

/-- The components that remain, with separators between them -/
def joined (allowAboveRoot : Bool) (isSeparator : UInt8 → Bool) (path : List UInt8) : List UInt8 :=
  [separator].intercalate (Cancelling.cancel allowAboveRoot dotdot (components isSeparator path))

/-- And a separator at the end, where the path has one and it is to be kept -/
def canonical (allowAboveRoot preserveTrailingSlash : Bool) (isSeparator : UInt8 → Bool) (path : List UInt8) : List UInt8 :=
  let text := joined allowAboveRoot isSeparator path
  if preserveTrailingSlash ∧ text ≠ [] ∧ path.getLast? = some separator then text ++ [separator] else text

end Funbun.Paths
