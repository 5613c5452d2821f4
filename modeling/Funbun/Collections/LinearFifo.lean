import Funbun.Library.Ring
import Mathlib.Data.Nat.Bitwise

/-! The fifo of the event loop, the pipes and the sockets: a ring buffer.

Wrapping is done by a mask where the size of the buffer is a power of two by its type, and by a remainder otherwise. A place
that was never written is `none`. An operation has no result where the source has no answer. Sizes stay so far below the
range of the machine that sums do not overflow. -/
namespace Funbun.Collections
open Library.Ring (overwrite onRange shiftDownOne)

/-- `LinearFifoBufferType` -/
inductive BufferType where
  | static
  | slice
  | dynamic
  deriving DecidableEq

structure LinearFifo (α : Type) where
  type : BufferType
  buf : List (Option α)
  head : Nat
  count : Nat
  deriving DecidableEq

/-- `usize::is_power_of_two` -/
def isPowerOfTwo (n : Nat) : Bool := n == 2 ^ n.log2

/-- `usize::checked_next_power_of_two` -/
def checkedNextPowerOfTwo (n : Nat) : Option Nat :=
  if n ≤ 2 ^ 63 then some (if n ≤ 1 then 1 else 2 ^ ((n - 1).log2 + 1)) else none

/-- `PAGE_SIZE_MIN / 2`, the size of the scratch of `realign`. -/
def scratchSize : Nat := 4096 / 2

namespace LinearFifo
variable {α : Type}

/-- `POWERS_OF_TWO`, of the type of the buffer. -/
def powersOfTwo (f : LinearFifo α) : Bool :=
  match f.type with
  | .static => isPowerOfTwo f.buf.length
  | .slice => false
  | .dynamic => true

def isDynamic (f : LinearFifo α) : Bool := f.type == .dynamic

def initStatic (n : Nat) : LinearFifo α := ⟨.static, List.replicate n none, 0, 0⟩

def initSlice (buf : List α) : LinearFifo α := ⟨.slice, buf.map some, 0, 0⟩

def initDynamic : LinearFifo α := ⟨.dynamic, [], 0, 0⟩

def bufLen (f : LinearFifo α) : Nat := f.buf.length

def readableLength (f : LinearFifo α) : Nat := f.count

def writableLength (f : LinearFifo α) : Nat := f.bufLen - f.count

/-- An index is wrapped: `&= buf_len - 1`, or `%= buf_len`. -/
def wrapped (f : LinearFifo α) (index : Nat) : Option Nat :=
  if f.bufLen = 0 then none
  else if f.powersOfTwo then some (index &&& (f.bufLen - 1))
  else some (index % f.bufLen)

/-! ### Realigning and growing -/

/-- `ptr::copy` in the buffer. -/
def copyWithin (buf : List (Option α)) (source dest n : Nat) : Option (List (Option α)) :=
  if source + n ≤ buf.length ∧ dest + n ≤ buf.length then some (overwrite buf dest ((buf.drop source).take n)) else none

/-- The loop of `realign`, by pieces of at most `tmpLen` items. The fuel is `head`. -/
def realignLoop (tmpLen : Nat) : Nat → List (Option α) → Nat → Option (List (Option α))
  | _, buf, 0 => some buf
  | 0, _, _ + 1 => none
  | fuel + 1, buf, head + 1 =>
    let n := min (head + 1) tmpLen
    let tmp := buf.take n
    if n = 0 ∨ buf.length < n then none
    else match copyWithin buf n 0 (buf.length - n) with
      | none => none
      | some buf => realignLoop tmpLen fuel (overwrite buf (buf.length - n) tmp) (head + 1 - n)

/-- `realign`, for items of `itemSize` bytes. -/
def realign (itemSize : Nat) (f : LinearFifo α) : Option (LinearFifo α) :=
  if f.bufLen - f.head ≥ f.count then
    (copyWithin f.buf f.head 0 f.count).map fun buf => {f with buf := buf, head := 0}
  else if itemSize = 0 then none
  else (realignLoop (scratchSize / itemSize) f.head f.buf f.head).map fun buf => {f with buf := buf, head := 0}

/-- `realloc` of a dynamic buffer. -/
def realloc (buf : List (Option α)) (newSize : Nat) : List (Option α) :=
  buf.take newSize ++ List.replicate (newSize - buf.length) none

def shrink (itemSize : Nat) (f : LinearFifo α) (size : Nat) : Option (LinearFifo α) :=
  if f.isDynamic then (f.realign itemSize).map fun f => {f with buf := realloc f.buf size}
  else some f

/-- `ensure_total_capacity`, with whether it is `Ok`. -/
def ensureTotalCapacity (itemSize : Nat) (f : LinearFifo α) (size : Nat) : Option (Bool × LinearFifo α) :=
  if f.bufLen ≥ size then some (true, f)
  else if f.isDynamic then
    (f.realign itemSize).map fun f =>
      match checkedNextPowerOfTwo size with
      | none => (false, f)
      | some newSize =>
        (true, {f with buf := f.buf.take f.count ++ List.replicate (newSize - f.count) none, head := 0})
  else some (false, f)

def ensureUnusedCapacity (itemSize : Nat) (f : LinearFifo α) (size : Nat) : Option (Bool × LinearFifo α) :=
  if f.writableLength ≥ size then some (true, f)
  else if f.count + size < 2 ^ 64 then f.ensureTotalCapacity itemSize (f.count + size)
  else some (false, f)

/-! ### Reading -/

/-- A part of the buffer. -/
def range (buf : List (Option α)) (start stop : Nat) : Option (List (Option α)) :=
  if start ≤ stop ∧ stop ≤ buf.length then some ((buf.take stop).drop start) else none

/-- Where `readable_slice` and `readable_slice_mut` start and stop. -/
def readableRange (f : LinearFifo α) (offset : Nat) : Nat × Nat :=
  if offset > f.count then (0, 0)
  else if f.head + offset ≥ f.bufLen then
    (f.head + offset - f.bufLen, f.head + offset - f.bufLen + (f.count - offset))
  else (f.head + offset, min (f.head + f.count) f.bufLen)

def readableSlice (f : LinearFifo α) (offset : Nat) : Option (List (Option α)) :=
  range f.buf (f.readableRange offset).1 (f.readableRange offset).2

/-- `discard`. The mask of an empty buffer is `usize::MAX`. -/
def discard (f : LinearFifo α) (count : Nat) : Option (LinearFifo α) :=
  let head := f.head + count
  if f.powersOfTwo then
    let mask := if f.bufLen = 0 then 2 ^ 64 - 1 else f.bufLen - 1
    some {f with head := head &&& mask, count := f.count - count}
  else if f.bufLen = 0 then none
  else some {f with head := head % f.bufLen, count := f.count - count}

def readItem (f : LinearFifo α) : Option (Option (Option α) × LinearFifo α) :=
  if f.count = 0 then some (none, f)
  else match f.buf[f.head]?, f.discard 1 with
    | some c, some f => some (some c, f)
    | _, _ => none

/-- The loop of `read`, for what is left of the destination. The fuel is its size. -/
def readLoop : Nat → LinearFifo α → Nat → Option (List (Option α) × LinearFifo α)
  | 0, f, _ => some ([], f)
  | fuel + 1, f, left =>
    if left = 0 then some ([], f)
    else match f.readableSlice 0 with
      | none => none
      | some slice =>
        if slice.isEmpty then some ([], f)
        else
          let n := min slice.length left
          match f.discard n with
          | none => none
          | some f => (readLoop fuel f (left - n)).map fun r => (slice.take n ++ r.1, r.2)

/-- `read` into a destination of `size` items: the items copied. -/
def read (f : LinearFifo α) (size : Nat) : Option (List (Option α) × LinearFifo α) := readLoop size f size

def peekItem (f : LinearFifo α) (offset : Nat) : Option (Option α) :=
  match f.wrapped (f.head + offset) with
  | some index => f.buf[index]?
  | none => none

/-! ### Writing -/

/-- Where `writable_slice` starts and stops, at offset 0. -/
def writableRange (f : LinearFifo α) : Nat × Nat :=
  if f.head + f.count < f.bufLen then (f.head + f.count, f.bufLen)
  else (f.head + f.count - f.bufLen, f.head + f.count - f.bufLen + f.writableLength)

/-- `copy_from_slice` to a place of the buffer. -/
def copyFrom (buf : List (Option α)) (start : Nat) (items : List (Option α)) : Option (List (Option α)) :=
  if start + items.length ≤ buf.length then some (overwrite buf start items) else none

def update (f : LinearFifo α) (count : Nat) : LinearFifo α := {f with count := f.count + count}

/-- The loop of `write_assume_capacity`. The fuel is the size of the source. -/
def writeLoop : Nat → LinearFifo α → List α → Option (LinearFifo α)
  | _, f, [] => some f
  | 0, _, _ :: _ => none
  | fuel + 1, f, a :: src =>
    match range f.buf f.writableRange.1 f.writableRange.2 with
    | none => none
    | some writable =>
      let n := min writable.length (a :: src).length
      match copyFrom f.buf f.writableRange.1 (((a :: src).take n).map some) with
      | none => none
      | some buf => writeLoop fuel ({f with buf := buf}.update n) ((a :: src).drop n)

def write (itemSize : Nat) (f : LinearFifo α) (src : List α) : Option (Bool × LinearFifo α) :=
  match f.ensureUnusedCapacity itemSize src.length with
  | none => none
  | some (false, f) => some (false, f)
  | some (true, f) => (writeLoop src.length f src).map fun f => (true, f)

def writeItemAssumeCapacity (f : LinearFifo α) (item : α) : Option (LinearFifo α) :=
  match f.wrapped (f.head + f.count) with
  | none => none
  | some tail => (copyFrom f.buf tail [some item]).map fun buf => {f with buf := buf}.update 1

def writeItem (itemSize : Nat) (f : LinearFifo α) (item : α) : Option (Bool × LinearFifo α) :=
  match f.ensureUnusedCapacity itemSize 1 with
  | none => none
  | some (false, f) => some (false, f)
  | some (true, f) => (f.writeItemAssumeCapacity item).map fun f => (true, f)

/-- `writable_with_size`, with `data` written to the slice it gives, and `update`. -/
def writableWithSize (itemSize : Nat) (f : LinearFifo α) (size : Nat) (data : List α) : Option (Bool × LinearFifo α) :=
  match f.ensureUnusedCapacity itemSize size with
  | none => none
  | some (false, f) => some (false, f)
  | some (true, f) =>
    let aligned := if f.writableRange.2 - f.writableRange.1 < size then f.realign itemSize else some f
    match aligned with
    | none => none
    | some f =>
      if f.writableRange.1 + size ≤ f.writableRange.2 ∧ f.writableRange.2 ≤ f.bufLen ∧ data.length ≤ size then
        some (true, {f with buf := overwrite f.buf f.writableRange.1 (data.map some)}.update data.length)
      else none

/-! ### Putting back and taking out -/

def rewind (f : LinearFifo α) (count : Nat) : Option (LinearFifo α) :=
  (f.wrapped (f.head + (f.bufLen - count))).map fun head => {f with head := head, count := f.count + count}

/-- `unget`, where there is the capacity. -/
def ungetAssumeCapacity (f : LinearFifo α) (src : List α) : Option (LinearFifo α) :=
  match f.rewind src.length with
  | none => none
  | some f =>
    match f.readableSlice 0 with
    | none => none
    | some slice =>
      let n := min slice.length src.length
      match copyFrom f.buf (f.readableRange 0).1 ((src.take n).map some) with
      | none => none
      | some buf =>
        if src.length > slice.length then
          let f := {f with buf := buf}
          (copyFrom f.buf (f.readableRange slice.length).1 ((src.drop n).map some)).map fun buf => {f with buf := buf}
        else some {f with buf := buf}

def unget (itemSize : Nat) (f : LinearFifo α) (src : List α) : Option (Bool × LinearFifo α) :=
  match f.ensureUnusedCapacity itemSize src.length with
  | none => none
  | some (false, f) => some (false, f)
  | some (true, f) => (f.ungetAssumeCapacity src).map fun f => (true, f)

/-- `shift_down_one` of a part of the buffer. -/
def shiftDown (buf : List (Option α)) (start stop : Nat) : Option (List (Option α)) :=
  if start ≤ stop ∧ stop ≤ buf.length then some (onRange shiftDownOne buf start stop) else none

def orderedRemoveItem (f : LinearFifo α) (offset : Nat) : Option (LinearFifo α) :=
  if offset = 0 then f.discard 1
  else
    let removed :=
      if f.bufLen - f.head ≥ f.count then shiftDown f.buf (f.head + offset) f.bufLen
      else match f.wrapped (f.head + offset) with
        | none => none
        | some index =>
          let wrapLen := f.head + f.count - f.bufLen
          if index < f.head then shiftDown f.buf index wrapLen
          else match f.buf[0]?, shiftDown f.buf index f.bufLen with
            | some wrap, some buf => shiftDown (overwrite buf (f.bufLen - 1) [wrap]) 0 wrapLen
            | _, _ => none
    removed.map fun buf => {f with buf := buf, count := f.count - 1}

/-! ### Calls -/

inductive Call (α : Type) where
  | write (src : List α)
  | writeItem (item : α)
  | read (size : Nat)
  | readItem
  | discard (count : Nat)
  | unget (src : List α)
  | orderedRemoveItem (offset : Nat)
  | realign
  | shrink (size : Nat)
  | ensureTotalCapacity (size : Nat)
  | ensureUnusedCapacity (size : Nat)
  /-- `writable_with_size`, and `update` by the data written to the slice. -/
  | writableWithSize (size : Nat) (data : List α)
  deriving DecidableEq

/-- What a call gives back: whether it is `Ok`, and the items read. -/
structure Reply (α : Type) where
  ok : Bool
  items : List (Option α)
  deriving DecidableEq

/-- The arguments are within what the call asserts. -/
def Call.Asserted (f : LinearFifo α) : Call α → Prop
  | .discard count => count ≤ f.count
  | .orderedRemoveItem offset => offset < f.count
  | .shrink size => f.count ≤ size
  | .writableWithSize size data => data.length ≤ size
  | _ => True

instance (f : LinearFifo α) (call : Call α) : Decidable (call.Asserted f) := by
  cases call <;> unfold Call.Asserted <;> infer_instance

def silent (f : LinearFifo α) : Reply α × LinearFifo α := (⟨true, []⟩, f)

def said (r : Bool × LinearFifo α) : Reply α × LinearFifo α := (⟨r.1, []⟩, r.2)

def step (itemSize : Nat) (f : LinearFifo α) : Call α → Option (Reply α × LinearFifo α)
  | .write src => (f.write itemSize src).map said
  | .writeItem item => (f.writeItem itemSize item).map said
  | .read size => (f.read size).map fun r => (⟨true, r.1⟩, r.2)
  | .readItem => f.readItem.map fun r => (⟨true, r.1.toList⟩, r.2)
  | .discard count => (f.discard count).map silent
  | .unget src => (f.unget itemSize src).map said
  | .orderedRemoveItem offset => (f.orderedRemoveItem offset).map silent
  | .realign => (f.realign itemSize).map silent
  | .shrink size => (f.shrink itemSize size).map silent
  | .ensureTotalCapacity size => (f.ensureTotalCapacity itemSize size).map said
  | .ensureUnusedCapacity size => (f.ensureUnusedCapacity itemSize size).map said
  | .writableWithSize size data => (f.writableWithSize itemSize size data).map said

end LinearFifo
end Funbun.Collections
