import Mathlib.Data.Finset.SymmDiff
import Mathlib.Order.Interval.Finset.Nat
import Funbun.Collections.BitSetWords

/-! A dynamic bit set is a finite set of numbers below its length.

The bits of its words are the members of the set, so that the padding of the last word has no ones. Every operation on words
keeps that, where the words that it reads are there. -/
namespace Funbun.Collections
open Library Library.Bits Library.Words

/-- Numbers below a length -/
@[ext] structure IndexSet where
  length : Nat
  members : Finset Nat
  lt : ∀ i ∈ members, i < length

namespace IndexSet

/-- The numbers that are below the length -/
def below (length : Nat) (members : Finset Nat) : IndexSet :=
  ⟨length, members.filter (· < length), fun _ hi => (Finset.mem_filter.1 hi).2⟩

variable (a b c : IndexSet)

@[simp]
theorem below_length (length : Nat) (members : Finset Nat) : (below length members).length = length := rfl

@[simp]
theorem mem_below {length i : Nat} {members : Finset Nat} : i ∈ (below length members).members ↔ i ∈ members ∧ i < length :=
  Finset.mem_filter

theorem below_self : below a.length a.members = a := IndexSet.ext rfl (Finset.filter_true_of_mem a.lt)

def empty : IndexSet := below 0 ∅

def insert (i : Nat) : IndexSet := below a.length (Insert.insert i a.members)

def erase (i : Nat) : IndexSet := below a.length (a.members.erase i)

def toggle (i : Nat) : IndexSet := below a.length (symmDiff a.members {i})

def setValue (i : Nat) (value : Bool) : IndexSet := if value then a.insert i else a.erase i

def setRangeValue (start stop : Nat) (value : Bool) : IndexSet :=
  below a.length (if value then a.members ∪ Finset.Ico start stop else a.members \ Finset.Ico start stop)

def setAll (value : Bool) : IndexSet := below a.length (if value then Finset.range a.length else ∅)

def toggleAll : IndexSet := below a.length (Finset.range a.length \ a.members)

def toggleSet : IndexSet := below a.length (symmDiff a.members b.members)

def union : IndexSet := below a.length (a.members ∪ b.members)

def inter : IndexSet := below a.length (a.members ∩ b.members)

def exclude : IndexSet := below a.length (a.members \ b.members)

/-- The members of another set, in a set of the same length as before -/
def copyInto : IndexSet := below a.length b.members

/-- Shorter, or longer with or without the numbers that are added -/
def resize (length : Nat) (fill : Bool) : IndexSet :=
  below length (if fill then a.members ∪ Finset.Ico a.length length else a.members)

/-- The numbers below the length that are members, or that are not, in their order -/
def ascending (kindSet : Bool) : List Nat := (List.range a.length).filter fun i => decide (i ∈ a.members) == kindSet

def least : Option Nat := (a.ascending true).head?

def toggleLeast : IndexSet :=
  match a.least with
  | some i => a.erase i
  | none => a

theorem mem_ascending {i : Nat} {kindSet : Bool} : i ∈ a.ascending kindSet ↔ i < a.length ∧ decide (i ∈ a.members) = kindSet := by
  unfold ascending
  rw [List.mem_filter, List.mem_range, beq_iff_eq]

theorem pairwise_ascending (kindSet : Bool) : (a.ascending kindSet).Pairwise (· < ·) := List.pairwise_lt_range.filter _

end IndexSet

namespace DynamicBitSetUnmanaged

/-- The words of a set -/
def masks (s : DynamicBitSetUnmanaged) : List Word := s.words.take (numMasks s.bitLength)

/-- The words of the set have the bits of the members, and no others. -/
structure Good (s : DynamicBitSetUnmanaged) (a : IndexSet) : Prop where
  length : s.bitLength = a.length
  room : numMasks s.bitLength ≤ s.words.length
  represents : Represents s.masks a.members

variable {s t : DynamicBitSetUnmanaged} {a b : IndexSet}

theorem Good.masksSlice (h : Good s a) : s.masksSlice = .ok s.masks := if_pos h.room

theorem Good.length_masks (h : Good s a) : s.masks.length = numMasks a.length := by
  unfold masks
  rw [List.length_take, Nat.min_eq_left h.room, h.length]

theorem Good.lt_masks (h : Good s a) {i : Nat} (hi : i < a.length) : i < 64 * s.masks.length := by
  rw [h.length_masks]
  exact Nat.lt_of_lt_of_le hi (length_le_masks _)

/-- The padding of the last word is zero. -/
theorem Good.padding (h : Good s a) {i : Nat} (hi : s.bitLength ≤ i) : bit s.masks i = false := by
  rw [← Bool.not_eq_true, h.represents i]
  exact fun hmem => absurd (a.lt i hmem) (by rw [← h.length]; exact Nat.not_lt.2 hi)

/-- No numbers are below zero. -/
theorem good_empty (members : Finset Nat) : Good empty (.below 0 members) :=
  ⟨rfl, Nat.le_refl _, fun i => by simp [masks, empty, bit]⟩

/-! ### Writing words -/

variable {f : List Word → Checked (List Word)} {members : Finset Nat} {g : Bool → Bool → Bool}

/-- The words after a write to all of them -/
theorem Good.update {P : List Word → Prop} (h : Good s a)
    (hf : Returns (f s.masks) fun out => out.length = s.masks.length ∧ P out) :
    Returns (s.updateMasks f) fun s' => s'.bitLength = s.bitLength ∧ numMasks s'.bitLength ≤ s'.words.length ∧
      s'.masks.length = s.masks.length ∧ P s'.masks := by
  obtain ⟨out, hout, hlength, hP⟩ := hf
  have hmasks : out.length = numMasks s.bitLength := by
    rw [hlength, h.length_masks, h.length]
  have htake : masks { s with words := out ++ s.words.drop (numMasks s.bitLength) } = out := by
    unfold masks
    rw [← hmasks, List.take_left]
  refine ⟨{ s with words := out ++ s.words.drop (numMasks s.bitLength) }, ?_, rfl, ?_, ?_, ?_⟩
  · unfold updateMasks
    rw [h.masksSlice]
    exact bind_eq_ok.2 ⟨out, hout, rfl⟩
  · rw [List.length_append, hmasks]
    exact Nat.le_add_right ..
  · rw [htake, hlength]
  · rw [htake]
    exact hP

/-- A write after which the bits are those of other members -/
theorem Good.write (h : Good s a) (hf : Returns (f s.masks) fun out => out.length = s.masks.length ∧
      ∀ i < 64 * s.masks.length, bit out i = true ↔ i ∈ members ∧ i < a.length) :
    Returns (s.updateMasks f) fun s' => Good s' (.below a.length members) := by
  refine (h.update hf).mono fun s' hs' => ?_
  obtain ⟨hbitLength, hroom, hlength, hbits⟩ := hs'
  refine ⟨hbitLength.trans h.length, hroom, fun i => ?_⟩
  rw [IndexSet.mem_below]
  constructor
  · intro hi
    have hlt := lt_of_bit hi
    rw [hlength] at hlt
    exact (hbits i hlt).1 hi
  · exact fun hi => (hbits i (h.lt_masks hi.2)).2 hi

/-- A write that may leave ones in the padding, which are cleared -/
theorem Good.writeThenMask (h : Good s a) (hne : s.bitLength ≠ 0)
    (hf : Returns (f s.masks) fun out => out.length = s.masks.length ∧ ∀ i < a.length, bit out i = true ↔ i ∈ members) :
    Returns (s.updateMasks f >>= maskLast) fun s' => Good s' (.below a.length members) := by
  refine (h.update hf).bind fun t ht => ?_
  obtain ⟨hbitLength, hroom, hlength, hbits⟩ := ht
  have hmasks : t.masks.length = numMasks t.bitLength := by
    rw [hlength, hbitLength, h.length_masks, h.length]
  obtain ⟨out, hout, houtLength, houtBits⟩ := maskLast_returns (hbitLength ▸ hne) hmasks
  have htake : masks { t with words := out ++ t.words.drop (numMasks t.bitLength) } = out := by
    unfold masks
    rw [← hmasks, ← houtLength, List.take_left]
  refine ⟨{ t with words := out ++ t.words.drop (numMasks t.bitLength) }, ?_, hbitLength.trans h.length, ?_, fun i => ?_⟩
  · unfold maskLast updateMasks DynamicBitSetUnmanaged.masksSlice
    rw [if_pos hroom]
    exact bind_eq_ok.2 ⟨out, hout, rfl⟩
  · rw [List.length_append, houtLength, hmasks]
    exact Nat.le_add_right ..
  · have hall : t.bitLength = a.length := hbitLength.trans h.length
    rw [htake, IndexSet.mem_below]
    constructor
    · intro hi
      have hlt := lt_of_bit hi
      rw [houtLength] at hlt
      rw [houtBits i hlt, Bool.and_eq_true, decide_eq_true_eq, hall] at hi
      exact ⟨(hbits i hi.2).1 hi.1, hi.2⟩
    · intro hi
      rw [houtBits i (by rw [hlength]; exact h.lt_masks hi.2), Bool.and_eq_true, decide_eq_true_eq, hall]
      exact ⟨(hbits i hi.2).2 hi.1, hi.2⟩

/-! ### One bit, or a range -/

theorem Good.bit_eq (h : Good s a) (i : Nat) : bit s.masks i = decide (i ∈ a.members) := by
  rw [Bool.eq_iff_iff, h.represents i, decide_eq_true_eq]

/-- A write to one bit -/
theorem Good.writeBit {index : Nat} (hindex : index < a.length) {f : Word → Word} {g : Bool → Bool}
    (hf : ∀ x j, j < 64 → (f x).getLsbD j = if j = index % 64 then g (x.getLsbD j) else x.getLsbD j)
    (hmembers : ∀ i, i ∈ members ↔ if i = index then g (decide (i ∈ a.members)) = true else i ∈ a.members) (h : Good s a) :
    Returns (s.updateMasks (modifyWord (wordMaskIndex index) f)) fun s' => Good s' (.below a.length members) := by
  refine h.write ((modifyBit_returns (h.lt_masks hindex) hf).mono fun out hout => ⟨hout.1, fun i hi => ?_⟩)
  rw [hout.2 i hi, hmembers, h.bit_eq]
  by_cases hi : i = index
  · rw [if_pos hi, if_pos hi]
    exact (and_iff_left (hi ▸ hindex)).symm
  · rw [if_neg hi, if_neg hi, decide_eq_true_eq]
    exact (and_iff_left_of_imp (a.lt i)).symm

section OneBit
variable {index : Nat}

theorem Good.set (h : Good s a) (hindex : index < a.length) : Returns (s.set index) fun s' => Good s' (a.insert index) := by
  refine h.writeBit hindex (g := fun _ => true) (fun x j hj => ?_) fun i => ?_
  · rw [BitVec.getLsbD_or, getLsbD_wordMaskBit index hj]
    by_cases hbit : j = index % 64
    · simp [hbit]
    · simp [hbit]
  · by_cases hi : i = index
    · simp [hi]
    · simp [hi]

theorem Good.unset (h : Good s a) (hindex : index < a.length) : Returns (s.unset index) fun s' => Good s' (a.erase index) := by
  refine h.writeBit hindex (g := fun _ => false) (fun x j hj => ?_) fun i => ?_
  · rw [BitVec.getLsbD_and, BitVec.getLsbD_not, getLsbD_wordMaskBit index hj, decide_eq_true hj]
    by_cases hbit : j = index % 64
    · simp [hbit]
    · simp [hbit]
  · by_cases hi : i = index
    · simp [hi]
    · simp [hi]

theorem Good.toggle (h : Good s a) (hindex : index < a.length) : Returns (s.toggle index) fun s' => Good s' (a.toggle index) := by
  refine h.writeBit hindex (g := fun value => !value) (fun x j hj => ?_) fun i => ?_
  · rw [BitVec.getLsbD_xor, getLsbD_wordMaskBit index hj]
    by_cases hbit : j = index % 64
    · simp [hbit]
    · simp [hbit]
  · by_cases hi : i = index
    · simp [hi, Finset.mem_symmDiff]
    · simp [hi, Finset.mem_symmDiff]

theorem Good.setValue (h : Good s a) (hindex : index < a.length) (value : Bool) :
    Returns (s.setValue index value) fun s' => Good s' (a.setValue index value) := by
  have hf : ∀ x j, j < 64 → (x &&& ~~~wordMaskBit index ||| wordMaskBit index &&& boolMask value).getLsbD j =
      if j = index % 64 then value else x.getLsbD j := by
    intro x j hj
    rw [BitVec.getLsbD_or, BitVec.getLsbD_and, BitVec.getLsbD_and, BitVec.getLsbD_not, getLsbD_wordMaskBit index hj,
      getLsbD_boolMask value hj, decide_eq_true hj]
    by_cases hbit : j = index % 64
    · simp [hbit]
    · simp [hbit]
  cases value with
  | true =>
    refine h.writeBit hindex (g := fun _ => true) hf fun i => ?_
    by_cases hi : i = index
    · simp [hi]
    · simp [hi]
  | false =>
    refine h.writeBit hindex (g := fun _ => false) hf fun i => ?_
    by_cases hi : i = index
    · simp [hi]
    · simp [hi]

end OneBit

theorem Good.setRangeValue (h : Good s a) {start stop : Nat} (hle : start ≤ stop) (hstop : stop ≤ a.length) (value : Bool) :
    Returns (s.setRangeValue start stop value) fun s' => Good s' (a.setRangeValue start stop value) := by
  have hroom : stop ≤ 64 * s.masks.length := by
    rw [h.length_masks]
    exact hstop.trans (length_le_masks _)
  refine h.write ((setRangeValueMasks_returns value hle hroom).mono fun out hout => ⟨hout.1, fun i hi => ?_⟩)
  rw [hout.2 i hi, h.bit_eq]
  by_cases hin : start ≤ i ∧ i < stop
  · have hlt : i < a.length := Nat.lt_of_lt_of_le hin.2 hstop
    rw [if_pos hin]
    cases value with
    | true => simp [hin, hlt]
    | false => simp [hin]
  · rw [if_neg hin, decide_eq_true_eq]
    have hico : i ∉ Finset.Ico start stop := fun h => hin (Finset.mem_Ico.1 h)
    cases value with
    | true => simpa [hico] using a.lt i
    | false => simpa [hico] using a.lt i

/-! ### All bits -/

theorem Good.length_zero (h : Good s a) (hzero : s.bitLength = 0) : Good s (.below a.length members) := by
  refine ⟨h.length, h.room, fun i => ?_⟩
  have hnone : a.length = 0 := h.length.symm.trans hzero
  rw [h.represents i, IndexSet.mem_below, hnone]
  exact ⟨fun hi => absurd (a.lt i hi) (by omega), fun hi => absurd hi.2 (Nat.not_lt_zero i)⟩

theorem Good.mapWords {f : Word → Word} {g : Bool → Bool} (hf : ∀ x j, j < 64 → (f x).getLsbD j = g (x.getLsbD j))
    (hmembers : ∀ i < a.length, g (decide (i ∈ a.members)) = true ↔ i ∈ members) (h : Good s a) (hne : s.bitLength ≠ 0) :
    Returns (s.updateMasks (fun masks => .ok (masks.map f)) >>= maskLast) fun s' => Good s' (.below a.length members) := by
  refine h.writeThenMask hne (.ok ⟨List.length_map f, fun i hi => ?_⟩)
  rw [bit_map hf (by decide) (h.lt_masks hi), h.bit_eq]
  exact hmembers i hi

theorem Good.setAll (h : Good s a) (value : Bool) : Returns (s.setAll value) fun s' => Good s' (a.setAll value) := by
  unfold DynamicBitSetUnmanaged.setAll
  by_cases hne : s.bitLength = 0
  · rw [if_pos hne]
    exact .ok (h.length_zero hne)
  · rw [if_neg hne]
    refine h.mapWords (g := fun _ => value) (fun x j hj => getLsbD_boolMask value hj) (fun i hi => ?_) hne
    cases value with
    | true => simpa using hi
    | false => simp

theorem Good.toggleAll (h : Good s a) : Returns s.toggleAll fun s' => Good s' a.toggleAll := by
  unfold DynamicBitSetUnmanaged.toggleAll
  by_cases hne : s.bitLength = 0
  · rw [if_pos hne]
    exact .ok (h.length_zero hne)
  · rw [if_neg hne]
    refine h.mapWords (g := fun value => !value) (fun x j hj => ?_) (fun i hi => ?_) hne
    · rw [BitVec.getLsbD_not, decide_eq_true hj, Bool.true_and]
    · simp [hi]

/-! ### Two sets -/

theorem Good.zipMasksRaw_eq (h : Good t b) (f : Word → Word → Word) : s.zipMasksRaw t f =
    s.updateMasks fun dst => if dst.length ≤ t.masks.length then .ok (List.zipWith f dst t.masks) else .error .index := by
  unfold zipMasksRaw
  rw [h.masksSlice]
  rfl

variable {f : Word → Word → Word} {u : DynamicBitSetUnmanaged}

/-- The words that are read are those of the other set. -/
theorem Good.zipWords_returns
    (hf : ∀ x y j, j < 64 → (f x y).getLsbD j = g (x.getLsbD j) (y.getLsbD j)) (h : Good s a) (h' : Good t b)
    (hle : numMasks a.length ≤ numMasks b.length) :
    Returns (if s.masks.length ≤ t.masks.length then .ok (List.zipWith f s.masks t.masks) else .error .index) fun out =>
      out.length = s.masks.length ∧ ∀ i < 64 * s.masks.length, bit out i = g (decide (i ∈ a.members)) (decide (i ∈ b.members)) := by
  have hlength : s.masks.length ≤ t.masks.length := by rwa [h.length_masks, h'.length_masks]
  refine ⟨_, if_pos hlength, ?_, fun i hi => ?_⟩
  · rw [List.length_zipWith, Nat.min_eq_left hlength]
  · rw [bit_zipWith hf (by decide) hlength hi, h.bit_eq, h'.bit_eq]

/-- With fewer words in the other set, one is read that it does not have. -/
theorem Good.zipMasksRaw_fault (h : Good s a) (h' : Good t b) (hlt : numMasks b.length < numMasks a.length)
    (f : Word → Word → Word) : s.zipMasksRaw t f = .error .index := by
  have hlength : ¬s.masks.length ≤ t.masks.length := by
    rw [h.length_masks, h'.length_masks]
    exact Nat.not_le.2 hlt
  rw [h'.zipMasksRaw_eq]
  unfold updateMasks
  rw [h.masksSlice]
  simp only [bind, Except.bind]
  rw [if_neg hlength]

theorem Good.zip (hf : ∀ x y j, j < 64 → (f x y).getLsbD j = g (x.getLsbD j) (y.getLsbD j))
    (hmembers : ∀ i, g (decide (i ∈ a.members)) (decide (i ∈ b.members)) = true ↔ i ∈ members ∧ i < a.length)
    (h : Good s a) (h' : Good t b) (hle : numMasks a.length ≤ numMasks b.length) :
    Returns (s.zipMasksRaw t f) fun s' => Good s' (.below a.length members) := by
  rw [h'.zipMasksRaw_eq]
  refine h.write ((h.zipWords_returns hf h' hle).mono fun out hout => ⟨hout.1, fun i hi => ?_⟩)
  rw [hout.2 i hi]
  exact hmembers i

theorem Good.zipThenMask (hf : ∀ x y j, j < 64 → (f x y).getLsbD j = g (x.getLsbD j) (y.getLsbD j))
    (hmembers : ∀ i < a.length, g (decide (i ∈ a.members)) (decide (i ∈ b.members)) = true ↔ i ∈ members)
    (h : Good s a) (h' : Good t b) (hle : numMasks a.length ≤ numMasks b.length) (hne : s.bitLength ≠ 0) :
    Returns (s.zipMasksRaw t f >>= maskLast) fun s' => Good s' (.below a.length members) := by
  rw [h'.zipMasksRaw_eq]
  refine h.writeThenMask hne ((h.zipWords_returns hf h' hle).mono fun out hout => ⟨hout.1, fun i hi => ?_⟩)
  rw [hout.2 i (h.lt_masks hi)]
  exact hmembers i hi

theorem Good.toggleSet (h : Good s a) (h' : Good t b) (hlength : b.length = a.length) :
    Returns (s.toggleSet t) fun s' => Good s' (a.toggleSet b) := by
  unfold DynamicBitSetUnmanaged.toggleSet
  by_cases hne : s.bitLength = 0
  · rw [if_pos hne]
    exact .ok (h.length_zero hne)
  · rw [if_neg hne]
    refine h.zipThenMask (g := fun x y => x ^^ y) (fun x y j _ => BitVec.getLsbD_xor) (fun i _ => ?_) h' (by rw [hlength]) hne
    by_cases hi : i ∈ a.members
    · simp [hi, Finset.mem_symmDiff]
    · simp [hi, Finset.mem_symmDiff]

/-- Members that are below the length are copied from a set that has words enough. -/
theorem Good.copyInto (h : Good s a) (h' : Good t b) (hle : numMasks a.length ≤ numMasks b.length) :
    Returns (s.copyInto t) fun s' => Good s' (a.copyInto b) := by
  unfold DynamicBitSetUnmanaged.copyInto
  by_cases hne : s.bitLength = 0
  · rw [if_pos hne]
    exact .ok (h.length_zero hne)
  · rw [if_neg hne]
    exact h.zipThenMask (g := fun _ y => y) (fun _ _ _ _ => rfl) (fun i _ => decide_eq_true_iff) h' hle hne

theorem Good.copyInto_fault (h : Good s a) (h' : Good t b) (hlt : numMasks b.length < numMasks a.length) :
    s.copyInto t = .error .index := by
  have hne : s.bitLength ≠ 0 := by
    intro hzero
    rw [← h.length, hzero] at hlt
    exact absurd hlt (Nat.not_lt_zero _)
  unfold DynamicBitSetUnmanaged.copyInto
  rw [if_neg hne, h.zipMasksRaw_fault h' hlt]
  rfl

theorem Good.setUnion (h : Good s a) (h' : Good t b) (hlength : b.length = a.length) :
    Returns (s.setUnion t) fun s' => Good s' (a.union b) := by
  refine h.zip (g := fun x y => x || y) (fun x y j _ => BitVec.getLsbD_or) (fun i => ?_) h' (by rw [hlength])
  have hb : i ∈ b.members → i < a.length := hlength ▸ b.lt i
  by_cases hi : i ∈ a.members
  · simp [hi, a.lt i hi]
  · simpa [hi] using hb

theorem Good.setIntersection (h : Good s a) (h' : Good t b) (hlength : b.length = a.length) :
    Returns (s.setIntersection t) fun s' => Good s' (a.inter b) := by
  refine h.zip (g := fun x y => x && y) (fun x y j _ => BitVec.getLsbD_and) (fun i => ?_) h' (by rw [hlength])
  by_cases hi : i ∈ a.members
  · simp [hi, a.lt i hi]
  · simp [hi]

theorem Good.exclude (h : Good s a) (h' : Good t b) (hle : numMasks a.length ≤ numMasks b.length) :
    Returns (s.zipMasksRaw t fun x y => x &&& ~~~y) fun s' => Good s' (a.exclude b) := by
  refine h.zip (g := fun x y => x && !y) (fun x y j hj => ?_) (fun i => ?_) h' hle
  · rw [BitVec.getLsbD_and, BitVec.getLsbD_not, decide_eq_true hj, Bool.true_and]
  · by_cases hi : i ∈ a.members
    · simp [hi, a.lt i hi]
    · simp [hi]

theorem Good.setExclude (h : Good s a) (h' : Good t b) (hlength : b.length = a.length) :
    Returns (s.setExclude t) fun s' => Good s' (a.exclude b) := h.exclude h' (by rw [hlength])

/-- The third set has the words that are read of it. -/
theorem Good.setExcludeTwo {c : IndexSet} (h : Good s a) (h' : Good t b) (h'' : Good u c)
    (hlength : b.length = a.length) (hle : numMasks a.length ≤ numMasks c.length) :
    Returns (s.setExcludeTwo t u) fun s' => Good s' ((a.exclude b).exclude c) :=
  (h.exclude h' (by rw [hlength])).bind fun _ hs' => hs'.exclude h'' hle

theorem Good.setExcludeTwo_fault {c : IndexSet} (h : Good s a) (h' : Good t b) (h'' : Good u c)
    (hlength : b.length = a.length) (hlt : numMasks c.length < numMasks a.length) : s.setExcludeTwo t u = .error .index := by
  obtain ⟨s', hs', hgood⟩ := h.exclude h' (by rw [hlength])
  unfold DynamicBitSetUnmanaged.setExcludeTwo
  rw [hs']
  exact hgood.zipMasksRaw_fault h'' hlt _

end DynamicBitSetUnmanaged

end Funbun.Collections
