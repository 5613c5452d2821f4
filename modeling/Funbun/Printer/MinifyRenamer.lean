import Funbun.Bundler.ExportRenamer
import Mathlib.Data.Finset.Basic
import Mathlib.Data.List.Sort

/-! Short names for the slots that symbols share.

The slots of a namespace are named in the order of their counts, with numbers from one counter. A number becomes a name
by two alphabets, whose letters stand in the order of how often the text has them. -/
namespace Funbun.Printer
open Bundler (Name defaultHead defaultTail)

/-! ### Names from numbers -/

/-- Two alphabets. A name starts with a letter of `head`. -/
structure NameMinifier where
  head : List UInt8
  tail : List UInt8
  head_perm : head.Perm defaultHead
  tail_perm : tail.Perm defaultTail

namespace NameMinifier

/-- The `while` loop of `number_to_minified_name`, which takes less than `i` turns. -/
def tailOf (m : NameMinifier) : Nat → Nat → Name
  | 0, _ => []
  | _ + 1, 0 => []
  | fuel + 1, i + 1 => m.tail.getD (i % 64) 0 :: tailOf m fuel (i / 64)

/-- A letter to start with, and digits of base 64 behind it. -/
def numberToMinifiedName (m : NameMinifier) (i : Nat) : Name :=
  m.head.getD (i % 54) 0 :: m.tailOf (i / 54) (i / 54)

end NameMinifier

/-- Counts of the characters of `DEFAULT_TAIL`. -/
structure CharFreq where
  freqs : Fin 64 → Int

structure CharAndCount where
  char : UInt8
  count : Int
  index : Nat

/-- Descending by count, then ascending by index and char. -/
def CharAndCount.Le (a b : CharAndCount) : Prop :=
  b.count < a.count ∨ a.count = b.count ∧ (a.index < b.index ∨ a.index = b.index ∧ a.char ≤ b.char)

instance : DecidableRel CharAndCount.Le := fun a b =>
  inferInstanceAs (Decidable (b.count < a.count ∨
    a.count = b.count ∧ (a.index < b.index ∨ a.index = b.index ∧ a.char ≤ b.char)))

namespace CharFreq

/-- The characters with the most frequent ones first. -/
def sorted (freq : CharFreq) : List CharAndCount :=
  ((List.finRange 64).map fun i : Fin 64 => ⟨defaultTail.getD i 0, freq.freqs i, i⟩).insertionSort CharAndCount.Le

/-- Not a digit, so a name may start with it. -/
def isHead (char : UInt8) : Bool := char < 48 || char > 57

theorem perm_sorted (freq : CharFreq) : (freq.sorted.map CharAndCount.char).Perm defaultTail := by
  have hchars : ((List.finRange 64).map fun i : Fin 64 => (⟨defaultTail.getD i 0, freq.freqs i, i⟩ : CharAndCount)).map
      CharAndCount.char = defaultTail := by
    rw [List.map_map]
    show (List.finRange 64).map (fun i : Fin 64 => defaultTail.getD i 0) = defaultTail
    decide +kernel
  exact ((List.perm_insertionSort _ _).map _).trans (.of_eq hchars)

theorem filter_isHead_defaultTail : defaultTail.filter isHead = defaultHead := by decide +kernel

theorem perm_heads (freq : CharFreq) : ((freq.sorted.map CharAndCount.char).filter isHead).Perm defaultHead := by
  have h := freq.perm_sorted.filter isHead
  rwa [filter_isHead_defaultTail] at h

/-- The characters in their new order, and those of them that are no digits. -/
def compile (freq : CharFreq) : NameMinifier :=
  ⟨(freq.sorted.map CharAndCount.char).filter isHead, freq.sorted.map CharAndCount.char, freq.perm_heads, freq.perm_sorted⟩

end CharFreq

/-! ### Words that no name may be -/

def keywords : List Name :=
  ["break", "case", "catch", "class", "const", "continue", "debugger", "default", "delete", "do", "else", "enum",
   "export", "extends", "false", "finally", "for", "function", "if", "import", "in", "instanceof", "new", "null",
   "return", "super", "switch", "this", "throw", "true", "try", "typeof", "var", "void", "while", "with"].map
    fun word => word.toList.map Char.toUInt8

/-- `js_lexer::keyword` knows the word. -/
def keyword (name : Name) : Bool := name ∈ keywords

def isLower (char : UInt8) : Bool := 97 ≤ char && char ≤ 122

def isLatin1Start (char : UInt8) : Bool :=
  isLower char || 65 ≤ char && char ≤ 90 || char == 36 || char == 95

/-- `is_latin1_identifier`, for ASCII -/
def isLatin1Identifier : Name → Bool
  | [] => false
  | first :: rest => isLatin1Start first && rest.all fun char => 48 ≤ char && char ≤ 57 || isLatin1Start char

/-! ### The renamer -/

inductive SlotNamespace where
  | mustNotBeRenamed | default | label | privateName | mangledProp
  deriving DecidableEq

/-- The namespaces whose slots get names. -/
def slotNamespaces : List SlotNamespace := [.default, .label, .privateName, .mangledProp]

/-- A name that several symbols share. -/
structure SymbolSlot where
  name : Name
  count : Nat
  needsCapitalForJsx : Bool
  deriving DecidableEq

/-- `SymbolSlot::default` -/
def SymbolSlot.init : SymbolSlot := ⟨[], 0, false⟩

structure SlotAndCount where
  slot : Nat
  count : Nat

/-- Descending by count, then ascending by slot. -/
def SlotAndCount.Le (a b : SlotAndCount) : Prop := b.count < a.count ∨ a.count = b.count ∧ a.slot ≤ b.slot

instance : DecidableRel SlotAndCount.Le := fun a b =>
  inferInstanceAs (Decidable (b.count < a.count ∨ a.count = b.count ∧ a.slot ≤ b.slot))

/-- `SlotAndCount` for each slot -/
def slotsAndCounts (slots : List SymbolSlot) : List SlotAndCount := slots.zipIdx.map fun (slot, i) => ⟨i, slot.count⟩

/-- The slots in the order in which they are named. -/
def sortedSlots (slots : List SymbolSlot) : List SlotAndCount := (slotsAndCounts slots).insertionSort SlotAndCount.Le

structure MinifyRenamer where
  reservedNames : Finset Name
  slots : SlotNamespace → List SymbolSlot

namespace MinifyRenamer

/-- A loop over names: while `p` holds of the name, the next number is taken. -/
def skip (m : NameMinifier) (p : Name → Bool) : Nat → Name × Nat → Option (Name × Nat)
  | 0, _ => none
  | fuel + 1, (nameBuf, nextName) =>
    if p nameBuf then skip m p fuel (m.numberToMinifiedName nextName, nextName + 1) else some (nameBuf, nextName)

/-- A name for a slot. A capital is looked for last, among all numbers that follow. -/
def nextSlotName (r : MinifyRenamer) (m : NameMinifier) (fuel : Nat) (ns : SlotNamespace) (slot : SymbolSlot)
    (nextName : Nat) : Option (Name × Nat) :=
  let taken := (m.numberToMinifiedName nextName, nextName + 1)
  match ns with
  | .default =>
    (skip m (fun name => name ∈ r.reservedNames) fuel taken).bind fun taken =>
      if slot.needsCapitalForJsx then skip m (fun name => isLower (name.getD 0 0)) fuel taken else some taken
  | .label => skip m keyword fuel taken
  | .privateName => some (35 :: taken.1, taken.2)
  | .mustNotBeRenamed | .mangledProp => some taken

/-- One turn of the loop: a slot gets the next name. -/
def nameSlot (r : MinifyRenamer) (m : NameMinifier) (fuel : Nat) (ns : SlotNamespace)
    (s : List SymbolSlot × Nat) (data : SlotAndCount) : Option (List SymbolSlot × Nat) :=
  (r.nextSlotName m fuel ns (s.1.getD data.slot .init) s.2).map fun (name, nextName) =>
    (s.1.modify data.slot fun slot => {slot with name := name}, nextName)

/-- The slots of a namespace, numbers from zero on. -/
def nameSlots (r : MinifyRenamer) (m : NameMinifier) (fuel : Nat) (ns : SlotNamespace) : Option (List SymbolSlot) :=
  ((sortedSlots (r.slots ns)).foldlM (r.nameSlot m fuel ns) (r.slots ns, 0)).map (·.1)

/-- All namespaces, each with numbers of its own. -/
def assignNamesByFrequency (r : MinifyRenamer) (m : NameMinifier) (fuel : Nat) : Option MinifyRenamer :=
  slotNamespaces.foldlM (fun r ns => (r.nameSlots m fuel ns).map fun slots =>
    {r with slots := Function.update r.slots ns slots}) r

end MinifyRenamer
end Funbun.Printer
