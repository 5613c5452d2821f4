import Funbun.Collections.BitSetIterators
import Funbun.Collections.BitSetResize

/-! Runs of operations on dynamic bit sets, beside the sets of numbers that the same operations make. -/
namespace Funbun.Collections
open Library Library.Words

/-- Sets by name -/
abbrev Sets := Nat → DynamicBitSetUnmanaged

abbrev IndexSets := Nat → IndexSet

/-- An operation on the set `x`, with the memory that there is for it where it takes some -/
inductive BitSetOp where
  | resize (x : Nat) (memory : Option (Nat → Word)) (newLen : Nat) (fill : Bool)
  /-- The set `x` is dropped for a clone of `y`. -/
  | clone (x y : Nat) (memory : Option (Nat → Word))
  | set (x index : Nat)
  | unset (x index : Nat)
  | toggle (x index : Nat)
  | setValue (x index : Nat) (value : Bool)
  | setRangeValue (x start stop : Nat) (value : Bool)
  | setAll (x : Nat) (value : Bool)
  | toggleAll (x : Nat)
  | toggleFirstSet (x : Nat)
  | toggleSet (x y : Nat)
  | setUnion (x y : Nat)
  | setIntersection (x y : Nat)
  | setExclude (x y : Nat)
  | setExcludeTwo (x y z : Nat)
  /-- Of `DynamicBitSet`, from `y` into `x` -/
  | copyInto (x y : Nat)

/-- What an operation gives back -/
inductive Given where
  | nothing
  | first (index : Option Nat)
  | done (ok : Bool)
  deriving DecidableEq

namespace BitSetOp

def put (σ : Sets) (x : Nat) (s : Checked DynamicBitSetUnmanaged) : Checked (Sets × Given) :=
  s >>= fun s => .ok (Function.update σ x s, .nothing)

def run (σ : Sets) : BitSetOp → Checked (Sets × Given)
  | resize x memory newLen fill => (σ x).resize memory newLen fill >>= fun r => .ok (Function.update σ x r.1, .done r.2)
  | clone x y memory => (σ y).clone memory >>= fun r =>
    match r with
    | some copy => .ok (Function.update σ x copy, .done true)
    | none => .ok (σ, .done false)
  | set x index => put σ x ((σ x).set index)
  | unset x index => put σ x ((σ x).unset index)
  | toggle x index => put σ x ((σ x).toggle index)
  | setValue x index value => put σ x ((σ x).setValue index value)
  | setRangeValue x start stop value => put σ x ((σ x).setRangeValue start stop value)
  | setAll x value => put σ x ((σ x).setAll value)
  | toggleAll x => put σ x (σ x).toggleAll
  | toggleFirstSet x => (σ x).toggleFirstSet >>= fun r => .ok (Function.update σ x r.2, .first r.1)
  | toggleSet x y => put σ x ((σ x).toggleSet (σ y))
  | setUnion x y => put σ x ((σ x).setUnion (σ y))
  | setIntersection x y => put σ x ((σ x).setIntersection (σ y))
  | setExclude x y => put σ x ((σ x).setExclude (σ y))
  | setExcludeTwo x y z => put σ x ((σ x).setExcludeTwo (σ y) (σ z))
  | copyInto x y => put σ x ((σ x).copyInto (σ y))

/-- The same operation on sets of numbers. Where there was no memory, they stay as they are. -/
def onNumbers (α : IndexSets) (given : Given) : BitSetOp → IndexSets
  | resize x _ newLen fill => if given = .done true then Function.update α x ((α x).resize newLen fill) else α
  | clone x y _ => if given = .done true then Function.update α x (α y) else α
  | set x index => Function.update α x ((α x).insert index)
  | unset x index => Function.update α x ((α x).erase index)
  | toggle x index => Function.update α x ((α x).toggle index)
  | setValue x index value => Function.update α x ((α x).setValue index value)
  | setRangeValue x start stop value => Function.update α x ((α x).setRangeValue start stop value)
  | setAll x value => Function.update α x ((α x).setAll value)
  | toggleAll x => Function.update α x (α x).toggleAll
  | toggleFirstSet x => Function.update α x (α x).toggleLeast
  | toggleSet x y => Function.update α x ((α x).toggleSet (α y))
  | setUnion x y => Function.update α x ((α x).union (α y))
  | setIntersection x y => Function.update α x ((α x).inter (α y))
  | setExclude x y => Function.update α x ((α x).exclude (α y))
  | setExcludeTwo x y z => Function.update α x (((α x).exclude (α y)).exclude (α z))
  | copyInto x y => Function.update α x ((α x).copyInto (α y))

/-- What the operation is to give back: the least member, and success where there is memory -/
def Gives (α : IndexSets) (given : Given) : BitSetOp → Prop
  | resize _ memory _ _ | clone _ _ memory => ∃ ok, given = .done ok ∧ (ok = false → memory = none)
  | toggleFirstSet x => given = .first (α x).least
  | _ => given = .nothing

/-- What the operation asserts, or has in its documentation -/
def Asserted (α : IndexSets) : BitSetOp → Prop
  | set x index | unset x index | toggle x index | setValue x index _ => index < (α x).length
  | setRangeValue x start stop _ => start ≤ stop ∧ stop ≤ (α x).length
  | toggleSet x y | setUnion x y | setIntersection x y | setExclude x y | setExcludeTwo x y _ => (α y).length = (α x).length
  | copyInto x y => (α y).length ≤ (α x).length
  | _ => True

/-- The sets of which words are read have as many words as the set that is written. -/
def Covered (α : IndexSets) : BitSetOp → Prop
  | setExcludeTwo x _ z => numMasks (α x).length ≤ numMasks (α z).length
  | copyInto x y => numMasks (α x).length ≤ numMasks (α y).length
  | _ => True

end BitSetOp

/-! ### Sets of numbers -/

/-- The set is the set of numbers for whoever reads it, and the padding of its last word is zero. -/
structure Agrees (s : DynamicBitSetUnmanaged) (a : IndexSet) : Prop where
  bitLength : s.bitLength = a.length
  padding : ∀ i, s.bitLength ≤ i → bit s.masks i = false
  isSet : ∀ i < a.length, s.isSet i = .ok (decide (i ∈ a.members))
  isSetAllowOutOfBound : ∀ i outOfBounds,
    s.isSetAllowOutOfBound i outOfBounds = .ok (if i < a.length then decide (i ∈ a.members) else outOfBounds)
  count : s.count = .ok a.members.card
  findFirstSet : s.findFirstSet = .ok a.least
  iterator : ∀ kindSet dirFwd, Returns (s.iterator kindSet dirFwd) fun it =>
    ∀ calls > a.length, BitSetIterator.toList kindSet dirFwd calls it =
      .ok (if dirFwd then a.ascending kindSet else (a.ascending kindSet).reverse)

/-- What two sets are to each other is what the sets of numbers are. -/
structure Compare (s t : DynamicBitSetUnmanaged) (a b : IndexSet) : Prop where
  eql : Returns (s.eql t) fun same => same = true ↔ a = b
  subsetOf : Returns (s.subsetOf t) fun subset => subset = true ↔ a.length = b.length ∧ a.members ⊆ b.members
  supersetOf : Returns (s.supersetOf t) fun superset => superset = true ↔ a.length = b.length ∧ b.members ⊆ a.members

def AllAgree (σ : Sets) (α : IndexSets) : Prop := (∀ x, Agrees (σ x) (α x)) ∧ ∀ x y, Compare (σ x) (σ y) (α x) (α y)

def AllGood (σ : Sets) (α : IndexSets) : Prop := ∀ x, (σ x).Good (α x)

variable {σ : Sets} {α : IndexSets}

theorem AllGood.allAgree (h : AllGood σ α) : AllAgree σ α := by
  refine ⟨fun x => ?_, fun x y => ⟨(h x).eql (h y), (h x).subsetOf (h y), (h x).supersetOf (h y)⟩⟩
  have hx := h x
  exact ⟨hx.length, fun i hi => hx.padding hi, fun i hi => hx.isSet hi, hx.isSetAllowOutOfBound, hx.count, hx.findFirstSet,
    hx.iterator⟩

theorem AllGood.update (h : AllGood σ α) (x : Nat) {s : DynamicBitSetUnmanaged} {a : IndexSet} (hs : s.Good a) :
    AllGood (Function.update σ x s) (Function.update α x a) := by
  intro y
  by_cases hy : y = x
  · subst hy
    rwa [Function.update_self, Function.update_self]
  · rw [Function.update_of_ne hy, Function.update_of_ne hy]
    exact h y

theorem AllGood.put (h : AllGood σ α) (x : Nat) {s : Checked DynamicBitSetUnmanaged} {a : IndexSet}
    (hs : Returns s fun s' => s'.Good a) :
    Returns (BitSetOp.put σ x s) fun r => r.2 = .nothing ∧ AllGood r.1 (Function.update α x a) :=
  hs.bind fun _ hgood => .ok ⟨rfl, h.update x hgood⟩

/-! ### One operation, and a run of them -/

/-- An operation that is covered gives what it gives on sets of numbers, and the sets are still these. -/
theorem AllGood.step (h : AllGood σ α) {op : BitSetOp} (hasserted : op.Asserted α) (hcovered : op.Covered α) :
    Returns (op.run σ) fun r => op.Gives α r.2 ∧ AllGood r.1 (op.onNumbers α r.2) := by
  cases op with
  | resize x memory newLen fill =>
    refine ((h x).resize memory newLen fill).bind fun r hr => .ok ⟨⟨r.2, rfl, hr.2⟩, ?_⟩
    have hgood := h.update x hr.1
    cases hdone : r.2 with
    | true => simpa [BitSetOp.onNumbers, hdone] using hgood
    | false => simpa [BitSetOp.onNumbers, hdone] using hgood
  | clone x y memory =>
    refine ((h y).clone memory).bind fun r hr => ?_
    cases r with
    | none => exact .ok ⟨⟨false, rfl, fun _ => hr.2 rfl⟩, h⟩
    | some copy => exact .ok ⟨⟨true, rfl, fun hfalse => absurd hfalse.symm Bool.false_ne_true⟩, h.update x (hr.1 copy rfl)⟩
  | set x index => exact h.put x ((h x).set hasserted)
  | unset x index => exact h.put x ((h x).unset hasserted)
  | toggle x index => exact h.put x ((h x).toggle hasserted)
  | setValue x index value => exact h.put x ((h x).setValue hasserted value)
  | setRangeValue x start stop value => exact h.put x ((h x).setRangeValue hasserted.1 hasserted.2 value)
  | setAll x value => exact h.put x ((h x).setAll value)
  | toggleAll x => exact h.put x (h x).toggleAll
  | toggleFirstSet x =>
    refine (h x).toggleFirstSet.bind fun r hr => .ok ⟨?_, h.update x hr.2⟩
    rw [BitSetOp.Gives, hr.1]
  | toggleSet x y => exact h.put x ((h x).toggleSet (h y) hasserted)
  | setUnion x y => exact h.put x ((h x).setUnion (h y) hasserted)
  | setIntersection x y => exact h.put x ((h x).setIntersection (h y) hasserted)
  | setExclude x y => exact h.put x ((h x).setExclude (h y) hasserted)
  | setExcludeTwo x y z => exact h.put x ((h x).setExcludeTwo (h y) (h z) hasserted hcovered)
  | copyInto x y => exact h.put x ((h x).copyInto (h y) hcovered)

/-- An operation that is not covered reads a word that the other set does not have. -/
theorem AllGood.step_fault (h : AllGood σ α) {op : BitSetOp} (hasserted : op.Asserted α) (hcovered : ¬op.Covered α) :
    op.run σ = .error .index := by
  cases op with
  | setExcludeTwo x y z =>
    rw [BitSetOp.run, BitSetOp.put, (h x).setExcludeTwo_fault (h y) (h z) hasserted (Nat.not_le.1 hcovered)]
    rfl
  | copyInto x y =>
    rw [BitSetOp.run, BitSetOp.put, (h x).copyInto_fault (h y) (Nat.not_le.1 hcovered)]
    rfl
  | _ => exact absurd trivial hcovered

/-- Sets of numbers and bit sets that the same operations make, each of them such as `May` says -/
inductive BitSetRun (May : BitSetOp → IndexSets → Prop) : Sets → IndexSets → Prop where
  | start : BitSetRun May (fun _ => .empty) fun _ => .empty
  | step {σ : Sets} {α : IndexSets} {r : Sets × Given} (op : BitSetOp) : BitSetRun May σ α → op.Asserted α → May op α →
      op.run σ = .ok r → BitSetRun May r.1 (op.onNumbers α r.2)

theorem BitSetRun.allGood (h : BitSetRun (fun op α => op.Covered α) σ α) : AllGood σ α := by
  induction h with
  | start => exact fun _ => DynamicBitSetUnmanaged.good_empty ∅
  | step op _ hasserted hcovered hrun ih =>
    obtain ⟨r, hr, -, hgood⟩ := ih.step hasserted hcovered
    rw [hrun] at hr
    cases hr
    exact hgood

/-- The sets of a run are sets of numbers, and the next operation keeps to their words just when it is covered. -/
theorem bitSets_iff (h : BitSetRun (fun op α => op.Covered α) σ α) : AllAgree σ α ∧ ∀ op : BitSetOp, op.Asserted α →
    (Returns (op.run σ) (fun r => op.Gives α r.2 ∧ AllAgree r.1 (op.onNumbers α r.2)) ↔ op.Covered α) := by
  have hgood := h.allGood
  refine ⟨hgood.allAgree, fun op hasserted => ⟨fun hreturns => ?_, fun hcovered => ?_⟩⟩
  · by_contra hcovered
    obtain ⟨r, hr, -⟩ := hreturns
    rw [hgood.step_fault hasserted hcovered] at hr
    cases hr
  · exact (hgood.step hasserted hcovered).mono fun r hr => ⟨hr.1, hr.2.allAgree⟩

/-- Two sets of 65 numbers and of one -/
def unequal : Sets := Function.update (Function.update (fun _ => .empty) 0 ⟨65, [0xffffffffffffffff, 1]⟩) 1 ⟨1, [1]⟩

theorem bitSetRun_unequal {May : BitSetOp → IndexSets → Prop} (hmay : ∀ x memory newLen fill α, May (.resize x memory newLen fill) α) :
    BitSetRun May unequal (Function.update (Function.update (fun _ => .empty) 0 (IndexSet.empty.resize 65 true)) 1
      (IndexSet.empty.resize 1 true)) := by
  have hlong : DynamicBitSetUnmanaged.empty.resize (some fun _ => 7) 65 true = .ok (⟨65, [0xffffffffffffffff, 1]⟩, true) := by
    decide +kernel
  have hshort : DynamicBitSetUnmanaged.empty.resize (some fun _ => 7) 1 true = .ok (⟨1, [1]⟩, true) := by decide +kernel
  have hfirst := BitSetRun.step (r := (Function.update (fun _ => .empty) 0 ⟨65, [0xffffffffffffffff, 1]⟩, .done true))
    (.resize 0 (some fun _ => 7) 65 true) .start trivial (hmay ..) (bind_eq_ok.2 ⟨_, hlong, rfl⟩)
  exact .step (r := (unequal, .done true)) (.resize 1 (some fun _ => 7) 1 true) hfirst trivial (hmay ..)
    (bind_eq_ok.2 ⟨_, hshort, rfl⟩)

/-- Of the two sets of a run, the long one has all its members, and a union keeps them. -/
theorem bitSets_iff_unequal : (unequal 0).count = .ok 65 ∧ Returns (BitSetOp.run unequal (.setUnion 0 0)) fun r =>
    (r.1 0).count = .ok 65 := by
  obtain ⟨hagree, hnext⟩ := bitSets_iff (bitSetRun_unequal fun _ _ _ _ _ => trivial)
  have hall : (IndexSet.empty.resize 65 true).members.card = 65 := by decide +kernel
  have hunion : ((IndexSet.empty.resize 65 true).union (IndexSet.empty.resize 65 true)).members.card = 65 := by decide +kernel
  refine ⟨(hagree.1 0).count.trans (congrArg Except.ok hall), ((hnext (.setUnion 0 0) rfl).2 trivial).mono fun r hr => ?_⟩
  exact (hr.2.1 0).count.trans (congrArg Except.ok hunion)

/-- A set of one number is copied into one of 65 by a second word that it does not have. -/
theorem not_bitSets : ¬∀ (σ : Sets) (α : IndexSets), BitSetRun (fun _ _ => True) σ α → AllAgree σ α ∧
    ∀ op : BitSetOp, op.Asserted α → Returns (op.run σ) fun r => op.Gives α r.2 ∧ AllAgree r.1 (op.onNumbers α r.2) := by
  intro hall
  have hasserted : 1 ≤ 65 := by decide
  obtain ⟨r, hr, -⟩ := (hall _ _ (bitSetRun_unequal fun _ _ _ _ _ => trivial)).2 (.copyInto 0 1) hasserted
  have hfault : (unequal 0).copyInto (unequal 1) = .error .index := by decide +kernel
  rw [BitSetOp.run, BitSetOp.put, hfault] at hr
  cases hr

end Funbun.Collections
