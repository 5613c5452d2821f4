import Funbun.Semver.VersionOrder
import Funbun.Semver.Range

/-! The order of versions is the precedence of SemVer, as long as the numbers in pre-releases fit.

What precedence is stands here in its own terms: components, then identifiers, where numbers come before texts. -/
namespace Funbun.Semver
open Library.Descending Std

/-- A version, with the buffer that its strings are in -/
abbrev Stored := Version × List UInt8

namespace Stored

def order (x y : Stored) : Ordering := x.1.orderIn y.1 x.2 y.2

def orderWithoutBuild (x y : Stored) : Ordering := x.1.orderWithoutBuild y.1 x.2 y.2

end Stored

/-! ### Precedence -/

namespace Precedence

inductive Identifier where
  | numeric (n : Nat)
  | alphanumeric (text : List UInt8)

def Identifier.order : Identifier → Identifier → Ordering
  | numeric m, numeric n => compare m n
  | numeric _, alphanumeric _ => .lt
  | alphanumeric _, numeric _ => .gt
  | alphanumeric t, alphanumeric u => compare t u

/-- More fields are higher, when all before them are equal. -/
def orderFields : List Identifier → List Identifier → Ordering
  | [], [] => .eq
  | [], _ :: _ => .lt
  | _ :: _, [] => .gt
  | a :: as, b :: bs => (a.order b).then (orderFields as bs)

/-- A version with no pre-release is higher than one with. -/
def orderPre : List Identifier → List Identifier → Ordering
  | [], [] => .eq
  | [], _ :: _ => .gt
  | _ :: _, [] => .lt
  | as, bs => orderFields as bs

/-- The number that digits stand for, however large -/
def value (digits : List UInt8) : Nat := digits.foldl (fun n c => n * 10 + (c.toNat - 48)) 0

def identifier (part : List UInt8) : Identifier :=
  if part.all isDigit then .numeric (value part) else .alphanumeric part

/-- Not empty, of digits, letters and hyphens, and a number has no leading zero. -/
def ValidIdentifier (part : List UInt8) : Prop :=
  part ≠ [] ∧ (part.all fun c => isDigit c || isAlphabetic c || isDash c) ∧
    (part.all isDigit → part = [48] ∨ part.head? ≠ some 48)

instance (part : List UInt8) : Decidable (ValidIdentifier part) :=
  inferInstanceAs (Decidable (_ ∧ _ ∧ (_ → _ ∨ _)))

end Precedence

open Precedence

namespace Stored

/-- The parts of the pre-release, if there is one -/
def parts (x : Stored) : List (List UInt8) := if x.1.tag.hasPre then x.1.tag.preParts x.2 else []

/-- Every identifier is valid. -/
def Valid (x : Stored) : Prop := ∀ part ∈ x.parts, ValidIdentifier part

/-- No number needs more than 64 bits. -/
def Fits (x : Stored) : Prop := ∀ part ∈ x.parts, part.all isDigit → value part < 2 ^ 64

instance (x : Stored) : Decidable x.Valid := inferInstanceAs (Decidable (∀ part ∈ x.parts, ValidIdentifier part))

instance (x : Stored) : Decidable x.Fits :=
  inferInstanceAs (Decidable (∀ part ∈ x.parts, part.all isDigit → value part < 2 ^ 64))

/-- The precedence of SemVer -/
def precedence (x y : Stored) : Ordering :=
  (compare x.1.major.toNat y.1.major.toNat).then ((compare x.1.minor.toNat y.1.minor.toNat).then
    ((compare x.1.patch.toNat y.1.patch.toNat).then (orderPre (x.parts.map identifier) (y.parts.map identifier))))

end Stored

/-! ### A total preorder -/

namespace Tag

/-- The pre-release, where none comes last -/
def preKey (x : Stored) : List (List UInt8) ⊕ List UInt8 :=
  if x.1.tag.hasPre then .inl (x.1.tag.preParts x.2) else .inr []

end Tag

namespace Stored

abbrev compareKeys : Stored → Stored → Ordering :=
  compareLex (compareOn (·.1.major)) (compareLex (compareOn (·.1.minor)) (compareLex (compareOn (·.1.patch))
    (comparing Tag.preKey Tag.compareKeys)))

/-- An empty string is no string, whatever the buffer. -/
theorem orderIn_of_isEmpty {s s' : ExternalString} (h : s.isEmpty = true) (h' : s'.isEmpty = true)
    (lhsBuf rhsBuf : List UInt8) : s.orderIn s' lhsBuf rhsBuf = .eq := by
  rw [ExternalString.orderIn]
  split
  · rfl
  · rw [SemverString.orderIn, SemverString.slice_of_isEmpty h, SemverString.slice_of_isEmpty h']
    rfl

theorem orderPresence_then (x y : Stored) :
    (match x.1.orderPresence y.1 with
      | .eq => x.1.tag.orderWithoutBuild y.1.tag x.2 y.2
      | notEqual => notEqual) = Tag.compareKeys (Tag.preKey x) (Tag.preKey y) := by
  rw [Version.orderPresence, Tag.preKey, Tag.preKey, Tag.orderWithoutBuild]
  cases hpre : x.1.tag.hasPre <;> cases hpre' : y.1.tag.hasPre
  · have hempty : x.1.tag.pre.isEmpty = true := by simpa [Tag.hasPre] using hpre
    have hempty' : y.1.tag.pre.isEmpty = true := by simpa [Tag.hasPre] using hpre'
    simp only [hempty, Bool.false_eq_true, if_false, Bool.not_true, Bool.false_and]
    exact orderIn_of_isEmpty hempty hempty' _ _
  · rfl
  · rfl
  · have hempty : x.1.tag.pre.isEmpty = false := by simpa [Tag.hasPre] using hpre
    have hempty' : y.1.tag.pre.isEmpty = false := by simpa [Tag.hasPre] using hpre'
    simp only [hempty, hempty', if_true, Bool.not_true, Bool.not_false, Bool.and_self, Bool.false_eq_true, if_false]
    exact Tag.orderParts_eq _ _

theorem orderWithoutBuild_eq (x y : Stored) : x.orderWithoutBuild y = compareKeys x y := by
  have htag := orderPresence_then x y
  rw [orderWithoutBuild, Version.orderWithoutBuild, Version.orderWithoutTag_eq]
  show _ = (compare x.1.major y.1.major).then ((compare x.1.minor y.1.minor).then ((compare x.1.patch y.1.patch).then
    (Tag.compareKeys (Tag.preKey x) (Tag.preKey y))))
  cases compare x.1.major y.1.major with
  | eq =>
    cases compare x.1.minor y.1.minor with
    | eq =>
      cases compare x.1.patch y.1.patch with
      | eq => exact htag
      | _ => rfl
    | _ => rfl
  | _ => rfl

theorem orderWithoutBuild_swap (x y : Stored) : x.orderWithoutBuild y = (y.orderWithoutBuild x).swap := by
  rw [orderWithoutBuild_eq, orderWithoutBuild_eq]
  exact OrientedCmp.eq_swap

theorem isLE_trans {x y z : Stored} (hxy : (x.orderWithoutBuild y).isLE) (hyz : (y.orderWithoutBuild z).isLE) :
    (x.orderWithoutBuild z).isLE := by
  rw [orderWithoutBuild_eq] at hxy hyz ⊢
  exact TransCmp.isLE_trans hxy hyz

theorem isLE_total (x y : Stored) : (x.orderWithoutBuild y).isLE ∨ (y.orderWithoutBuild x).isLE := by
  rw [orderWithoutBuild_swap y x]
  cases x.orderWithoutBuild y
  · exact .inl rfl
  · exact .inl rfl
  · exact .inr rfl

/-- With builds too, an order and its reverse agree. -/
theorem order_swap (x y : Stored) : x.order y = (y.order x).swap := by
  have hexternal (s s' : ExternalString) : s.orderIn s' x.2 y.2 = (s'.orderIn s y.2 x.2).swap := by
    unfold ExternalString.orderIn
    by_cases h : s.hash = s'.hash ∧ 0 < s.hash
    · have h' : s'.hash = s.hash ∧ 0 < s'.hash := ⟨h.1.symm, h.1 ▸ h.2⟩
      rw [if_pos h, if_pos h']
      rfl
    · have h' : ¬(s'.hash = s.hash ∧ 0 < s'.hash) := fun h' => h ⟨h'.1.symm, h'.1 ▸ h'.2⟩
      rw [if_neg h, if_neg h']
      exact (OrientedCmp.eq_swap : compare (s.value.slice x.2) (s'.value.slice y.2) = _)
  have htag : x.1.tag.orderIn y.1.tag x.2 y.2 = (y.1.tag.orderIn x.1.tag y.2 x.2).swap := by
    unfold Tag.orderIn
    by_cases h : (!x.1.tag.pre.isEmpty && !y.1.tag.pre.isEmpty) = true
    · rw [if_pos h, if_pos (Bool.and_comm _ _ ▸ h), Tag.orderPreIn, Tag.orderPreIn, Tag.orderParts_eq, Tag.orderParts_eq]
      exact OrientedCmp.eq_swap
    · rw [if_neg h, if_neg (Bool.and_comm _ _ ▸ h), hexternal x.1.tag.pre, hexternal x.1.tag.build]
      cases y.1.tag.pre.orderIn x.1.tag.pre y.2 x.2 <;> rfl
  have hpresence : x.1.orderPresence y.1 = (y.1.orderPresence x.1).swap := by
    unfold Version.orderPresence
    cases x.1.tag.hasPre <;> cases y.1.tag.hasPre <;> rfl
  have hwithout : x.1.orderWithoutTag y.1 = (y.1.orderWithoutTag x.1).swap := by
    have hswap (a b : UInt64) : compare a b = (compare b a).swap := OrientedCmp.eq_swap
    rw [Version.orderWithoutTag_eq, Version.orderWithoutTag_eq, hswap x.1.major, hswap x.1.minor, hswap x.1.patch,
      hpresence]
    simp only [Ordering.swap_then]
  rw [order, order, Version.orderIn, Version.orderIn, hwithout, htag]
  cases y.1.orderWithoutTag x.1 <;> rfl

end Stored

/-! ### Valid identifiers -/

namespace Tag

theorem parseDigits_of_digits {digits : List UInt8} (h : digits.all isDigit = true) (acc : Nat) :
    parseDigits acc digits = some (digits.foldl (fun n c => n * 10 + (c.toNat - 48)) acc) := by
  induction digits generalizing acc with
  | nil => rfl
  | cons c rest ih =>
    obtain ⟨hc, hrest⟩ := Bool.and_eq_true_iff.mp (List.all_cons ▸ h)
    have hdigit : 48 ≤ c ∧ c ≤ 57 := by simpa [isDigit] using hc
    have hseparator : c ≠ 95 := by
      rintro rfl
      exact absurd hdigit.2 (by decide)
    rw [parseDigits, if_neg hseparator, if_pos hdigit, ih hrest]
    rfl

theorem parseDigits_of_text {text : List UInt8} (hseparator : 95 ∉ text) (h : text.all isDigit = false) (acc : Nat) :
    parseDigits acc text = none := by
  induction text generalizing acc with
  | nil => cases h
  | cons c rest ih =>
    have hc : c ≠ 95 := fun heq => hseparator (heq ▸ List.mem_cons_self)
    rw [parseDigits, if_neg hc]
    split
    · rename_i hdigit
      refine ih (fun hmem => hseparator (List.mem_cons_of_mem c hmem)) ?_ _
      simpa [isDigit, hdigit] using h
    · rfl

theorem not_mem_of_valid {part : List UInt8} (h : ValidIdentifier part) : 95 ∉ part := by
  intro hmem
  have hbad : ¬ (isDigit 95 || isAlphabetic 95 || isDash 95) = true := by decide
  exact hbad (List.all_eq_true.mp h.2.1 95 hmem)

def keyOf : Identifier → Nat ⊕ List UInt8
  | .numeric n => .inl n
  | .alphanumeric text => .inr text

/-- A valid identifier is read as what it is, if its number fits. -/
theorem partKey_eq {part : List UInt8} (h : ValidIdentifier part) (hfits : part.all isDigit → value part < 2 ^ 64) :
    partKey part = keyOf (identifier part) := by
  have hsep := not_mem_of_valid h
  have hends : ¬(part = [] ∨ part.head? = some 95 ∨ part.getLast? = some 95) := by
    rintro (hnil | hhead | hlast)
    · exact h.1 hnil
    · exact hsep (List.mem_of_mem_head? hhead)
    · exact hsep (List.mem_of_mem_getLast? hlast)
  rw [partKey, parseAscii, if_neg hends, identifier]
  by_cases hdigits : part.all isDigit = true
  · have hlt : part.foldl (fun n c => n * 10 + (c.toNat - 48)) 0 < UInt64.size := hfits hdigits
    rw [parseDigits_of_digits hdigits, Option.bind_some, if_pos hlt, if_pos hdigits]
    rfl
  · rw [parseDigits_of_text hsep (Bool.eq_false_iff.mpr hdigits), if_neg hdigits]
    rfl

theorem order_keyOf (a b : Identifier) : a.order b = compareSum compare compare (keyOf a) (keyOf b) := by
  cases a <;> cases b <;> rfl

theorem orderFields_eq {as bs : List (List UInt8)} (ha : ∀ part ∈ as, partKey part = keyOf (identifier part))
    (hb : ∀ part ∈ bs, partKey part = keyOf (identifier part)) :
    orderFields (as.map identifier) (bs.map identifier) = List.compareLex comparePart as bs := by
  induction as generalizing bs with
  | nil => cases bs <;> rfl
  | cons a as ih =>
    cases bs with
    | nil => rfl
    | cons b bs =>
      have hhead : (identifier a).order (identifier b) = comparePart a b := by
        rw [order_keyOf, ← ha a List.mem_cons_self, ← hb b List.mem_cons_self]
        rfl
      rw [List.map_cons, List.map_cons, orderFields, hhead, List.compareLex_cons_cons,
        ih (fun part hmem => ha part (List.mem_cons_of_mem a hmem)) fun part hmem => hb part (List.mem_cons_of_mem b hmem)]

end Tag

namespace Stored

theorem partKey_of_valid {x : Stored} (h : x.Valid) (hfits : x.Fits) :
    ∀ part ∈ x.parts, Tag.partKey part = Tag.keyOf (identifier part) :=
  fun part hmem => Tag.partKey_eq (h part hmem) (hfits part hmem)

theorem orderPre_eq {x y : Stored} (hx : ∀ part ∈ x.parts, Tag.partKey part = Tag.keyOf (identifier part))
    (hy : ∀ part ∈ y.parts, Tag.partKey part = Tag.keyOf (identifier part)) :
    orderPre (x.parts.map identifier) (y.parts.map identifier) = Tag.compareKeys (Tag.preKey x) (Tag.preKey y) := by
  have hne (t : Tag) (buf : List UInt8) : ∃ part rest, t.preParts buf = part :: rest :=
    List.exists_cons_of_ne_nil (List.splitOn_ne_nil _ _)
  obtain ⟨a, as, hax⟩ := hne x.1.tag x.2
  obtain ⟨b, bs, hby⟩ := hne y.1.tag y.2
  unfold parts at hx hy ⊢
  unfold Tag.preKey
  cases hpre : x.1.tag.hasPre <;> cases hpre' : y.1.tag.hasPre
  · rfl
  · simp only [Bool.false_eq_true, if_false, if_true, hby]
    rfl
  · simp only [Bool.false_eq_true, if_false, if_true, hax]
    rfl
  · simp only [hpre, hpre', if_true] at hx hy ⊢
    have hfields := Tag.orderFields_eq hx hy
    rw [hax, hby] at hfields ⊢
    exact hfields

theorem compare_toNat (a b : UInt64) : compare a.toNat b.toNat = compare a b := by
  show compareOfLessAndEq a.toNat b.toNat = compareOfLessAndEq a b
  unfold compareOfLessAndEq
  exact if_congr UInt64.lt_iff_toNat_lt.symm rfl (if_congr UInt64.toNat_inj rfl rfl)

theorem orderWithoutBuild_eq_precedence {x y : Stored} (hx : x.Valid) (hy : y.Valid) (hfits : x.Fits) (hfits' : y.Fits) :
    x.orderWithoutBuild y = x.precedence y := by
  rw [orderWithoutBuild_eq, precedence, orderPre_eq (partKey_of_valid hx hfits) (partKey_of_valid hy hfits'),
    compare_toNat, compare_toNat, compare_toNat]
  rfl

/-- **A total preorder, and the precedence of SemVer** where no number of a pre-release needs more than 64 bits. -/
theorem orderWithoutBuild_exact :
    (∀ x : Stored, x.orderWithoutBuild x = .eq) ∧
      (∀ x y : Stored, (x.orderWithoutBuild y).isLE ∨ (y.orderWithoutBuild x).isLE) ∧
      (∀ x y z : Stored, (x.orderWithoutBuild y).isLE → (y.orderWithoutBuild z).isLE → (x.orderWithoutBuild z).isLE) ∧
      (∀ x y : Stored, x.orderWithoutBuild y = (y.orderWithoutBuild x).swap ∧ x.order y = (y.order x).swap) ∧
      ∀ x y : Stored, x.Valid → y.Valid → x.Fits → y.Fits → x.orderWithoutBuild y = x.precedence y := by
  refine ⟨fun x => ?_, isLE_total, fun _ _ _ => isLE_trans, fun x y => ⟨orderWithoutBuild_swap x y, order_swap x y⟩,
    fun _ _ => orderWithoutBuild_eq_precedence⟩
  exact (orderWithoutBuild_eq x x).trans ReflCmp.compare_self

/-- The version 0.0.0 with a pre-release, which is all that its buffer holds -/
def ofPre (hash : UInt64) (pre : List UInt8) : Stored := (⟨0, 0, 0, ⟨⟨.init 0 ⟨0, pre⟩, hash⟩, .empty⟩⟩, pre)

/-- `0.0.0-rc.2` before `0.0.0-rc.10` before `0.0.0-rc.x` -/
theorem orderWithoutBuild_exact_numbers :
    let x := ofPre 1 [114, 99, 46, 50]
    let y := ofPre 2 [114, 99, 46, 49, 48]
    let z := ofPre 3 [114, 99, 46, 120]
    (x.orderWithoutBuild z).isLE ∧ x.orderWithoutBuild y = x.precedence y ∧ x.precedence y = .lt :=
  ⟨orderWithoutBuild_exact.2.2.1 _ (ofPre 2 [114, 99, 46, 49, 48]) _ (by decide +kernel) (by decide +kernel),
    orderWithoutBuild_exact.2.2.2.2 _ _ (by decide +kernel) (by decide +kernel) (by decide +kernel) (by decide +kernel),
    by decide +kernel⟩

/-- `0.0.0-99999999999999999999` and `0.0.0-100000000000000000000`: what does not fit is compared as a text. -/
theorem orderWithoutBuild_longNumbers :
    let x := ofPre 1 (.replicate 20 57)
    let y := ofPre 2 (49 :: .replicate 20 48)
    x.Valid ∧ y.Valid ∧ x.orderWithoutBuild y = .gt ∧ x.precedence y = .lt := by
  decide +kernel

end Stored

end Funbun.Semver
