import Mathlib.Algebra.GroupWithZero.Nat
import Funbun.Library.Bits
import Funbun.Library.CheckedLoop

/-! Dynamic bit sets, whose bits are in words of 64.

A set has the words that its length takes. The allocation may have more. A word is read or written only where it is one of the
words of its set. -/
namespace Funbun.Collections
open Library Library.Bits

abbrev Word := BitVec 64

/-- `bool_mask_usize` -/
def boolMask (value : Bool) : Word := if value then BitVec.allOnes 64 else 0

def wordMaskBit (index : Nat) : Word := 1#64 <<< (index % 64)

def wordMaskIndex (index : Nat) : Nat := index / 64

/-- `num_masks_for` -/
def numMasks (bitLength : Nat) : Nat := (bitLength + 63) / 64

/-- The ones that the last word may have. The product may wrap, and the difference then wraps back. -/
def lastItemMask (bitLength : Nat) : Word := BitVec.allOnes 64 >>> (numMasks bitLength * 64 - bitLength)

/-- A write of one word -/
def modifyWord (i : Nat) (f : Word → Word) (masks : List Word) : Checked (List Word) :=
  if i < masks.length then .ok (masks.modify i f) else .error .index

def setRangeValueMasks (start stop : Nat) (value : Bool) (masks : List Word) : Checked (List Word) :=
  if start = stop then .ok masks
  else
    let startMaskIndex := wordMaskIndex start
    let startBit := start % 64
    let endMaskIndex := wordMaskIndex stop
    let endBit := stop % 64
    if startMaskIndex = endMaskIndex then
      subFrom endBit 1 >>= fun last =>
      let mask (value : Bool) := boolMask value <<< startBit &&& boolMask value >>> (63 - last)
      modifyWord startMaskIndex (fun m => m &&& ~~~mask true ||| mask value) masks
    else
      (if 0 < startBit then
        modifyWord startMaskIndex (fun m => m &&& ~~~(boolMask true <<< startBit) ||| boolMask value <<< startBit) masks
      else .ok masks) >>= fun masks =>
      let bulkMaskIndex := if 0 < startBit then startMaskIndex + 1 else startMaskIndex
      (if bulkMaskIndex ≤ endMaskIndex then
        writeAt masks bulkMaskIndex (List.replicate (endMaskIndex - bulkMaskIndex) (boolMask value))
      else .error .index) >>= fun masks =>
      if 0 < endBit then
        modifyWord endMaskIndex (fun m => m &&& (boolMask true <<< endBit) ||| boolMask value >>> (63 - (endBit - 1))) masks
      else .ok masks

/-- The words behind the one with the length of the allocation. The sentinel for no allocation has none. -/
structure DynamicBitSetUnmanaged where
  bitLength : Nat
  words : List Word
  deriving DecidableEq

namespace DynamicBitSetUnmanaged

/-- `default` -/
def empty : DynamicBitSetUnmanaged := ⟨0, []⟩

variable (s : DynamicBitSetUnmanaged)

def masksSlice : Checked (List Word) :=
  if numMasks s.bitLength ≤ s.words.length then .ok (s.words.take (numMasks s.bitLength)) else .error .index

/-- A write to the words of the set -/
def updateMasks (f : List Word → Checked (List Word)) : Checked DynamicBitSetUnmanaged :=
  s.masksSlice >>= f >>= fun masks => .ok { s with words := masks ++ s.words.drop (numMasks s.bitLength) }

/-! ### Length -/

/-- The length of the allocation, in words -/
def allocLen : Nat := if s.words = [] then 0 else s.words.length + 1

/-- `dyn_realloc`, which keeps the words that there is room for. Others have what `fresh` has. -/
def realloc (fresh : Nat → Word) (newMasks : Nat) : List Word := (List.range newMasks).map fun i => s.words[i]?.getD (fresh i)

/-- The memory of a set that is resized. With no memory to be had, an allocation that is too long is kept. -/
def resizeWords (memory : Option (Nat → Word)) (newMasks : Nat) : Option (List Word) :=
  if s.allocLen = newMasks + 1 then some s.words
  else
    match memory with
    | some fresh => some (s.realloc fresh newMasks)
    | none => if s.allocLen < newMasks + 1 then none else some s.words

/-- The words of a set that is resized, with the bits that are added -/
def fillWords (newLen : Nat) (fill : Bool) (masks : List Word) : Checked (List Word) :=
  let oldMasks := numMasks s.bitLength
  if s.bitLength < newLen then
    (if fill = true ∧ 0 < oldMasks then
      modifyWord (oldMasks - 1) (fun m => m ||| ~~~lastItemMask s.bitLength) masks
    else .ok masks) >>= fun masks =>
    if oldMasks < numMasks newLen then
      writeAt masks oldMasks (List.replicate (numMasks newLen - oldMasks) (boolMask fill))
    else .ok masks
  else .ok masks

/-- The set, and whether there was memory for it -/
def resize (memory : Option (Nat → Word)) (newLen : Nat) (fill : Bool) : Checked (DynamicBitSetUnmanaged × Bool) :=
  let newMasks := numMasks newLen
  if newMasks = 0 then .ok (empty, true)
  else
    match s.resizeWords memory newMasks with
    | none => .ok (s, false)
    | some words =>
      if newMasks ≤ words.length then
        s.fillWords newLen fill (words.take newMasks) >>= fun masks =>
        modifyWord (newMasks - 1) (fun m => m &&& lastItemMask newLen) masks >>= fun masks =>
        .ok (⟨newLen, masks ++ words.drop newMasks⟩, true)
      else .error .index

def clone (memory : Option (Nat → Word)) : Checked (Option DynamicBitSetUnmanaged) :=
  empty.resize memory s.bitLength false >>= fun resized =>
  if resized.2 then
    s.masksSlice >>= fun src =>
    (resized.1.updateMasks fun dst => if dst.length = src.length then .ok src else .error .index) >>= fun copy => .ok (some copy)
  else .ok none

/-! ### One bit, or a range -/

def setValue (index : Nat) (value : Bool) : Checked DynamicBitSetUnmanaged :=
  s.updateMasks (modifyWord (wordMaskIndex index) fun m =>
    m &&& ~~~wordMaskBit index ||| wordMaskBit index &&& boolMask value)

def set (index : Nat) : Checked DynamicBitSetUnmanaged :=
  s.updateMasks (modifyWord (wordMaskIndex index) fun m => m ||| wordMaskBit index)

def unset (index : Nat) : Checked DynamicBitSetUnmanaged :=
  s.updateMasks (modifyWord (wordMaskIndex index) fun m => m &&& ~~~wordMaskBit index)

def toggle (index : Nat) : Checked DynamicBitSetUnmanaged :=
  s.updateMasks (modifyWord (wordMaskIndex index) fun m => m ^^^ wordMaskBit index)

def setRangeValue (start stop : Nat) (value : Bool) : Checked DynamicBitSetUnmanaged :=
  s.updateMasks (setRangeValueMasks start stop value)

/-! ### All bits -/

/-- The padding of the last word is cleared. -/
def maskLast : Checked DynamicBitSetUnmanaged :=
  s.updateMasks (modifyWord (numMasks s.bitLength - 1) fun m => m &&& lastItemMask s.bitLength)

def setAll (value : Bool) : Checked DynamicBitSetUnmanaged :=
  if s.bitLength = 0 then .ok s
  else s.updateMasks (fun masks => .ok (masks.map fun _ => boolMask value)) >>= maskLast

def toggleAll : Checked DynamicBitSetUnmanaged :=
  if s.bitLength = 0 then .ok s else s.updateMasks (fun masks => .ok (masks.map fun m => ~~~m)) >>= maskLast

/-! ### Two sets -/

/-- The words of the other set are read as far as this set has words. -/
def zipMasksRaw (other : DynamicBitSetUnmanaged) (f : Word → Word → Word) : Checked DynamicBitSetUnmanaged :=
  other.masksSlice >>= fun src =>
  s.updateMasks fun dst => if dst.length ≤ src.length then .ok (List.zipWith f dst src) else .error .index

def toggleSet (toggles : DynamicBitSetUnmanaged) : Checked DynamicBitSetUnmanaged :=
  if s.bitLength = 0 then .ok s else s.zipMasksRaw toggles (fun a b => a ^^^ b) >>= maskLast

def copyInto (other : DynamicBitSetUnmanaged) : Checked DynamicBitSetUnmanaged :=
  if s.bitLength = 0 then .ok s else s.zipMasksRaw other (fun _ b => b) >>= maskLast

def setUnion (other : DynamicBitSetUnmanaged) : Checked DynamicBitSetUnmanaged := s.zipMasksRaw other fun a b => a ||| b

def setIntersection (other : DynamicBitSetUnmanaged) : Checked DynamicBitSetUnmanaged := s.zipMasksRaw other fun a b => a &&& b

def setExclude (other : DynamicBitSetUnmanaged) : Checked DynamicBitSetUnmanaged := s.zipMasksRaw other fun a b => a &&& ~~~b

def setExcludeTwo (other third : DynamicBitSetUnmanaged) : Checked DynamicBitSetUnmanaged :=
  s.zipMasksRaw other (fun a b => a &&& ~~~b) >>= fun s => s.zipMasksRaw third fun a c => a &&& ~~~c

/-! ### Reading -/

def isSet (index : Nat) : Checked Bool :=
  s.masksSlice >>= fun masks =>
  indexAt masks (wordMaskIndex index) >>= fun m => .ok (m &&& wordMaskBit index != 0)

def isSetAllowOutOfBound (index : Nat) (outOfBounds : Bool) : Checked Bool :=
  if s.bitLength ≤ index then .ok outOfBounds else s.isSet index

def count : Checked Nat := s.masksSlice >>= fun masks => .ok (masks.map countOnes).sum

/-- The loop of `find_first_set`, with the offset of the next word -/
def firstSet (offset : Nat) : List Word → Option Nat
  | [] => none
  | m :: masks => if m ≠ 0 then some (offset + trailingZeros m) else firstSet (offset + 64) masks

def findFirstSet : Checked (Option Nat) := s.masksSlice >>= fun masks => .ok (firstSet 0 masks)

/-- The loop of `toggle_first_set`, with the words before the next one -/
def clearFirst : List Word → List Word
  | [] => []
  | m :: masks => if m ≠ 0 then (m &&& (m - 1)) :: masks else m :: clearFirst masks

def toggleFirstSet : Checked (Option Nat × DynamicBitSetUnmanaged) :=
  s.masksSlice >>= fun masks =>
  s.updateMasks (fun masks => .ok (clearFirst masks)) >>= fun s => .ok (firstSet 0 masks, s)

def eql (other : DynamicBitSetUnmanaged) : Checked Bool :=
  if s.bitLength ≠ other.bitLength then .ok false
  else s.masksSlice >>= fun a => other.masksSlice >>= fun b => .ok (a == b)

def subsetOf (other : DynamicBitSetUnmanaged) : Checked Bool :=
  if s.bitLength ≠ other.bitLength then .ok false
  else s.masksSlice >>= fun a => other.masksSlice >>= fun b => .ok ((a.zip b).all fun m => m.1 &&& m.2 == m.1)

def supersetOf (other : DynamicBitSetUnmanaged) : Checked Bool :=
  if s.bitLength ≠ other.bitLength then .ok false
  else s.masksSlice >>= fun a => other.masksSlice >>= fun b => .ok ((a.zip b).all fun m => m.1 &&& m.2 == m.2)

end DynamicBitSetUnmanaged

/-! ### Iterators -/

structure BitSetIterator where
  bitsRemain : Word
  wordsRemain : List Word
  bitOffset : Nat
  lastWordMask : Word

namespace BitSetIterator
variable (kindSet dirFwd : Bool)

/-- The word and the words that remain after it -/
def takeWord : List Word → Checked (Word × List Word)
  | [] => .error .index
  | w :: ws => .ok (if dirFwd then (w, ws) else ((w :: ws).getLast (List.cons_ne_nil w ws), (w :: ws).dropLast))

def nextWord (isFirstWord : Bool) (it : BitSetIterator) : Checked BitSetIterator :=
  takeWord dirFwd it.wordsRemain >>= fun taken =>
  let word := taken.1
  let word :=
    if kindSet then word
    else if (dirFwd = false ∧ isFirstWord = true) ∨ (dirFwd = true ∧ it.wordsRemain.length = 1) then ~~~word &&& it.lastWordMask
    else ~~~word
  .ok { it with wordsRemain := taken.2, bitsRemain := word }

def init (masks : List Word) (lastWordMask : Word) : Checked BitSetIterator :=
  if masks = [] then .ok ⟨0, [], 0, lastWordMask⟩
  else nextWord kindSet dirFwd true ⟨0, masks, if dirFwd then 0 else (masks.length - 1) * 64, lastWordMask⟩

/-- `while self.bits_remain == 0`, with so many turns at most. There is nothing where no words remain. -/
def loadWord : Nat → BitSetIterator → Checked (Option BitSetIterator)
  | turns, it =>
    if it.bitsRemain ≠ 0 then .ok (some it)
    else if it.wordsRemain = [] then .ok none
    else
      match turns with
      | 0 => .error .fuel
      | turns + 1 =>
        nextWord kindSet dirFwd false it >>= fun it =>
        (if dirFwd then .ok (it.bitOffset + 64) else subFrom it.bitOffset 64) >>= fun bitOffset =>
        loadWord turns { it with bitOffset }

def next (it : BitSetIterator) : Checked (Option (Nat × BitSetIterator)) :=
  loadWord kindSet dirFwd it.wordsRemain.length it >>= fun loaded =>
  match loaded with
  | none => .ok none
  | some it =>
    if dirFwd then
      .ok (some (trailingZeros it.bitsRemain + it.bitOffset, { it with bitsRemain := it.bitsRemain &&& (it.bitsRemain - 1) }))
    else
      let topBit := 63 - leadingZeros it.bitsRemain
      .ok (some (topBit + it.bitOffset, { it with bitsRemain := it.bitsRemain &&& (1#64 <<< topBit - 1) }))

/-- What an iterator gives until it gives nothing, in so many calls at most -/
def toList : Nat → BitSetIterator → Checked (List Nat)
  | 0, _ => .error .fuel
  | calls + 1, it =>
    next kindSet dirFwd it >>= fun given =>
    match given with
    | none => .ok []
    | some (i, it) => toList calls it >>= fun rest => .ok (i :: rest)

end BitSetIterator

def DynamicBitSetUnmanaged.iterator (s : DynamicBitSetUnmanaged) (kindSet dirFwd : Bool) : Checked BitSetIterator :=
  s.masksSlice >>= fun masks => BitSetIterator.init kindSet dirFwd masks (lastItemMask s.bitLength)

end Funbun.Collections
