import Mathlib.Logic.Function.Basic
import Funbun.Library.CheckedLoop

/-! The intrusive heap.

Nodes are names `ι`. The links of a node are in the node itself, so they are there whether it is in the heap or not. -/
namespace Funbun.Io
open Library

structure IntrusiveField (ι : Type) where
  child : Option ι
  prev : Option ι
  next : Option ι
  deriving DecidableEq

/-- No links -/
def IntrusiveField.default {ι : Type} : IntrusiveField ι := ⟨none, none, none⟩

/-- The links of all nodes -/
abbrev Fields (ι : Type) := ι → IntrusiveField ι

structure Intrusive (ι : Type) where
  fields : Fields ι
  root : Option ι

section
variable {ι : Type} [DecidableEq ι]

/-! ### Writing a link -/

def setChild (fields : Fields ι) (v : ι) (child : Option ι) : Fields ι := Function.update fields v { fields v with child }

def setPrev (fields : Fields ι) (v : ι) (prev : Option ι) : Fields ι := Function.update fields v { fields v with prev }

def setNext (fields : Fields ι) (v : ι) (next : Option ι) : Fields ι := Function.update fields v { fields v with next }

variable (less : ι → ι → Bool)

/-! ### Melding -/

def meld (fields : Fields ι) (a b : ι) : Fields ι × ι :=
  if less a b then
    let fields := setPrev fields b (some a)
    let fields :=
      match (fields b).next with
      | some bNext => setNext (setPrev (setNext fields a (some bNext)) bNext (some a)) b none
      | none => fields
    let fields :=
      match (fields a).child with
      | some aChild => setPrev (setNext fields b (some aChild)) aChild (some b)
      | none => fields
    (setChild fields a (some b), a)
  else
    let fields := setPrev fields b (fields a).prev
    let fields := setPrev fields a (some b)
    let fields :=
      match (fields b).child with
      | some bChild => setPrev (setNext fields a (some bChild)) bChild (some a)
      | none => fields
    (setChild fields b (some a), b)

/-- A turn of the loop that merges pairs to the right, at the sibling `a` -/
def mergeRight (s : Fields ι × ι) : Checked (Turn (Fields ι × ι) (Fields ι × ι)) :=
  match (s.1 s.2).next with
  | none => .ok (.done s)
  | some b =>
    let melded := meld less (setNext s.1 s.2 none) s.2 b
    match (melded.1 melded.2).next with
    | none => .ok (.done melded)
    | some nextA => .ok (.next (melded.1, nextA))

/-- A turn of the loop that merges pairs to the left, with the root so far -/
def mergeLeft (s : Fields ι × ι) : Checked (Turn (Fields ι × ι) (Fields ι × ι)) :=
  match (s.1 s.2).prev with
  | none => .ok (.done s)
  | some b => .ok (.next (meld less (setNext s.1 b none) b s.2))

/-- With so many turns for each of the loops -/
def combineSiblings (turns : Nat) (fields : Fields ι) (left : ι) : Checked (Fields ι × ι) :=
  loop (mergeRight less) turns (setPrev fields left none, left) >>= loop (mergeLeft less) turns

/-! ### The heap -/

def Intrusive.insert (h : Intrusive ι) (v : ι) : Intrusive ι :=
  match h.root with
  | some root =>
    let melded := meld less h.fields v root
    ⟨melded.1, some melded.2⟩
  | none => ⟨h.fields, some v⟩

def Intrusive.peek (h : Intrusive ι) : Option ι := h.root

def Intrusive.deleteMin (turns : Nat) (h : Intrusive ι) : Checked (Option ι × Intrusive ι) :=
  match h.root with
  | none => .ok (none, h)
  | some root =>
    match (h.fields root).child with
    | some child =>
      combineSiblings less turns h.fields child >>= fun combined =>
      .ok (some root, ⟨Function.update combined.1 root .default, some combined.2⟩)
    | none => .ok (some root, ⟨Function.update h.fields root .default, none⟩)

/-- What `remove` does to the links around a node that has a previous one -/
def detach (fields : Fields ι) (v prev : ι) : Fields ι :=
  let vNext := (fields v).next
  let fields :=
    match vNext with
    | some next => setPrev fields next (some prev)
    | none => fields
  let fields := if (fields prev).child = some v then setChild fields prev vNext else setNext fields prev vNext
  setNext (setPrev fields v none) v none

def Intrusive.remove (turns : Nat) (h : Intrusive ι) (v : ι) : Checked (Intrusive ι) :=
  match (h.fields v).prev with
  | none => h.deleteMin less turns >>= fun deleted => .ok deleted.2
  | some prev =>
    let fields := detach h.fields v prev
    match (fields v).child with
    | none => .ok ⟨fields, h.root⟩
    | some child =>
      combineSiblings less turns (setChild fields v none) child >>= fun combined =>
      match h.root with
      | some root =>
        let melded := meld less combined.1 combined.2 root
        .ok ⟨melded.1, some melded.2⟩
      | none => .error .null

end

end Funbun.Io
