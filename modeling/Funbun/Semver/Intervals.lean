import Funbun.Semver.Precedence

/-! What comparators admit among releases.

Versions without a pre-release are triples of numbers, and what a comparator of npm means is an interval of triples. -/
namespace Funbun.Semver
open Library.Descending Std

/-- The numbers of a version -/
structure Triple where
  major : Nat
  minor : Nat
  patch : Nat
  deriving DecidableEq

namespace Triple

def Before (x y : Triple) : Prop :=
  x.major < y.major ∨ x.major = y.major ∧ (x.minor < y.minor ∨ x.minor = y.minor ∧ x.patch < y.patch)

instance (x y : Triple) : Decidable (x.Before y) := inferInstanceAs (Decidable (_ ∨ _ ∧ (_ ∨ _ ∧ _)))

def order (x y : Triple) : Ordering :=
  (compare x.major y.major).then ((compare x.minor y.minor).then (compare x.patch y.patch))

theorem order_eq_lt {x y : Triple} : x.order y = .lt ↔ x.Before y := by
  simp only [order, Before, Ordering.then_eq_lt, Nat.compare_eq_lt, Nat.compare_eq_eq]

theorem order_eq_gt {x y : Triple} : x.order y = .gt ↔ y.Before x := by
  simp only [order, Before, Ordering.then_eq_gt, Nat.compare_eq_gt, Nat.compare_eq_eq]
  omega

theorem order_eq_eq {x y : Triple} : x.order y = .eq ↔ x = y := by
  cases x
  cases y
  simp only [order, Ordering.then_eq_eq, Nat.compare_eq_eq, Triple.mk.injEq]

theorem not_before_self (x : Triple) : ¬x.Before x := by
  unfold Before
  omega

def zero : Triple := ⟨0, 0, 0⟩

theorem not_before_zero (x : Triple) : ¬x.Before .zero := by
  simp [Before, zero]

def nextMajor (x : Triple) : Triple := ⟨x.major + 1, 0, 0⟩

def nextMinor (x : Triple) : Triple := ⟨x.major, x.minor + 1, 0⟩

def nextPatch (x : Triple) : Triple := {x with patch := x.patch + 1}

end Triple

/-- From `lower` on, and before `upper` if there is one -/
structure Interval where
  lower : Triple
  upper : Option Triple

namespace Interval

def Mem (i : Interval) (x : Triple) : Prop := ¬x.Before i.lower ∧ ∀ upper ∈ i.upper, x.Before upper

def empty : Interval := ⟨.zero, some .zero⟩

theorem mem_some {lower upper x : Triple} : (⟨lower, some upper⟩ : Interval).Mem x ↔ ¬x.Before lower ∧ x.Before upper := by
  simp [Mem]

theorem mem_none {lower x : Triple} : (⟨lower, none⟩ : Interval).Mem x ↔ ¬x.Before lower := by simp [Mem]

theorem mem_from_zero {upper x : Triple} : (⟨.zero, some upper⟩ : Interval).Mem x ↔ x.Before upper := by
  rw [mem_some, and_iff_right x.not_before_zero]

theorem not_mem_empty (x : Triple) : ¬empty.Mem x := by
  rintro ⟨hlower, hupper⟩
  exact hlower (hupper .zero rfl)

end Interval

/-! ### The comparators of npm -/

namespace PartialVersion

/-- The wildcard for the first component that is missing -/
def wildcard (p : PartialVersion) : Wildcard :=
  match p.major, p.minor, p.patch with
  | none, _, _ => .major
  | some _, none, _ => .minor
  | some _, some _, none => .patch
  | some _, some _, some _ => .none

/-- Every component that is present is below the largest number. -/
def Below (p : PartialVersion) : Prop :=
  (∀ n ∈ p.major, n.toNat < UInt64.size - 1) ∧ (∀ n ∈ p.minor, n.toNat < UInt64.size - 1) ∧
    ∀ n ∈ p.patch, n.toNat < UInt64.size - 1

/-- The first release of an x-range: nothing after a missing component counts. -/
def floor (p : PartialVersion) : Triple :=
  match p.major, p.minor, p.patch with
  | none, _, _ => .zero
  | some major, none, _ => ⟨major.toNat, 0, 0⟩
  | some major, some minor, none => ⟨major.toNat, minor.toNat, 0⟩
  | some major, some minor, some patch => ⟨major.toNat, minor.toNat, patch.toNat⟩

/-- The first release after an x-range. The release that a pre-release is of comes after it. -/
def ceiling (p : PartialVersion) : Option Triple :=
  match p.wildcard with
  | .major => none
  | .minor => some p.floor.nextMajor
  | .patch => some p.floor.nextMinor
  | .none => some (if p.tag.hasPre then p.floor else p.floor.nextPatch)

end PartialVersion

/-- The intervals of npm, by operator -/
def npmInterval (tag : TokenTag) (p : PartialVersion) : Option Interval :=
  match tag with
  | .none => none
  | .version => some ⟨p.floor, p.ceiling⟩
  | .gte => some ⟨p.floor, none⟩
  | .lt => some ⟨.zero, some p.floor⟩
  | .lte => some ⟨.zero, p.ceiling⟩
  | .gt =>
    match p.ceiling with
    | some ceiling => some ⟨ceiling, none⟩
    | none => some .empty
  | .tilda =>
    match p.wildcard with
    | .major => some ⟨.zero, none⟩
    | .minor => some ⟨p.floor, some p.floor.nextMajor⟩
    | .patch | .none => some ⟨p.floor, some p.floor.nextMinor⟩
  -- up to the next number in place of the left-most that is not zero
  | .caret =>
    match p.wildcard with
    | .major => some ⟨.zero, none⟩
    | .minor => some ⟨p.floor, some p.floor.nextMajor⟩
    | .patch => some ⟨p.floor, some (if p.floor.major = 0 then p.floor.nextMinor else p.floor.nextMajor)⟩
    | .none =>
      some ⟨p.floor, some
        (if p.floor.major = 0 then if p.floor.minor = 0 then p.floor.nextPatch else p.floor.nextMinor
          else p.floor.nextMajor)⟩

/-! ### Ranges among releases -/

def Version.triple (v : Version) : Triple := ⟨v.major.toNat, v.minor.toNat, v.patch.toNat⟩

theorem Stored.orderWithoutBuild_then (x y : Stored) : x.orderWithoutBuild y =
    (x.1.triple.order y.1.triple).then (Tag.compareKeys (Tag.preKey x) (Tag.preKey y)) := by
  rw [orderWithoutBuild_eq, Triple.order, Version.triple, Version.triple, compare_toNat, compare_toNat, compare_toNat]
  show (compare _ _).then ((compare _ _).then ((compare _ _).then _)) = _
  rw [Ordering.then_assoc, Ordering.then_assoc]
  rfl

/-- The numbers decide, then that a release is after its pre-releases. -/
theorem Version.orderWithoutBuild_release {v : Version} (hv : v.tag.hasPre = false) (w : Version) (vBuf wBuf : List UInt8) :
    v.orderWithoutBuild w vBuf wBuf = (v.triple.order w.triple).then (if w.tag.hasPre then .gt else .eq) := by
  have horder := Stored.orderWithoutBuild_then (v, vBuf) (w, wBuf)
  rw [Stored.orderWithoutBuild] at horder
  rw [horder]
  have hv' : (Tag.preKey (v, vBuf)) = .inr [] := by rw [Tag.preKey, hv]; rfl
  rw [hv', Tag.preKey]
  cases w.tag.hasPre <;> rfl

namespace Comparator

/-- The first triple that is after the version -/
def after (c : Comparator) : Triple := if c.version.tag.hasPre then c.version.triple else c.version.triple.nextPatch

def Admits (c : Comparator) (x : Triple) : Prop :=
  match c.op with
  | .unset => False
  | .eql => ¬x.Before c.version.triple ∧ x.Before c.after
  | .lt => x.Before c.version.triple
  | .lte => x.Before c.after
  | .gt => ¬x.Before c.after
  | .gte => ¬x.Before c.version.triple

theorem before_after {v : Triple} {c : Comparator} :
    (v.order c.version.triple = .lt → v.Before c.version.triple ∧ v.Before c.after) ∧
      (v.order c.version.triple = .gt → ¬v.Before c.version.triple ∧ ¬v.Before c.after) := by
  rw [Triple.order_eq_lt, Triple.order_eq_gt]
  unfold after
  split <;> simp only [Triple.Before, Triple.nextPatch] <;> omega

theorem satisfies_iff {v : Version} (hv : v.tag.hasPre = false) (c : Comparator) (cBuf vBuf : List UInt8) :
    c.satisfies v cBuf vBuf = true ↔ c.Admits v.triple := by
  obtain ⟨hlt, hgt⟩ := before_after (v := v.triple) (c := c)
  rw [satisfies, Version.orderWithoutBuild_release hv, Admits]
  cases horder : v.triple.order c.version.triple with
  | lt =>
    obtain ⟨hbefore, hafter⟩ := hlt horder
    cases c.op <;> simp [hbefore, hafter]
  | gt =>
    obtain ⟨hbefore, hafter⟩ := hgt horder
    cases c.op <;> simp [hbefore, hafter]
  | eq =>
    have heq := Triple.order_eq_eq.mp horder
    have hbefore : ¬v.triple.Before c.version.triple := heq ▸ Triple.not_before_self _
    have hafter : v.triple.Before c.after ↔ c.version.tag.hasPre = false := by
      rw [after, heq]
      split
      · rename_i hpre
        exact iff_of_false (Triple.not_before_self _) (by simp [hpre])
      · rename_i hpre
        refine iff_of_true ?_ (by simpa using hpre)
        exact .inr ⟨rfl, .inr ⟨rfl, Nat.lt_succ_self _⟩⟩
    cases hpre : c.version.tag.hasPre <;> cases c.op <;> simp [hbefore, hafter, hpre]

end Comparator

namespace Range

def Admits (r : Range) (x : Triple) : Prop :=
  r.left.op = .unset ∨ r.left.Admits x ∧ (r.right.op = .unset ∨ r.right.Admits x)

theorem satisfies_iff {v : Version} (hv : v.tag.hasPre = false) (r : Range) (rBuf vBuf : List UInt8) :
    r.satisfies v rBuf vBuf = true ↔ r.Admits v.triple := by
  rw [satisfies, Bool.or_eq_true, Bool.and_eq_true, Bool.or_eq_true, Comparator.satisfies_iff hv,
    Comparator.satisfies_iff hv, hasLeft, hasRight, Admits]
  simp only [Bool.not_eq_true', decide_eq_false_iff_not, ne_eq, not_not]

theorem toNat_saturatingSucc {n : UInt64} (h : n.toNat < UInt64.size - 1) :
    (saturatingSucc n).toNat = n.toNat + 1 := by
  have hne : n ≠ .ofNat (UInt64.size - 1) := by
    rintro rfl
    exact absurd h (by decide)
  rw [saturatingSucc, if_neg hne, UInt64.toNat_add]
  exact Nat.mod_eq_of_lt (Nat.add_lt_of_lt_sub h)

theorem admits_only {op : Op} {w : Version} {x : Triple} (h : op ≠ .unset) :
    (only op w).Admits x ↔ (⟨op, w⟩ : Comparator).Admits x := by
  simp [Admits, only, Comparator.unset, h]

/-- What a caret and a tilde give -/
theorem admits_between {a b : Version} {x : Triple} :
    (⟨⟨.gte, a⟩, ⟨.lt, b⟩⟩ : Range).Admits x ↔ (⟨a.triple, some b.triple⟩ : Interval).Mem x := by
  simp [Admits, Comparator.Admits, Interval.Mem]

/-- What an x-range gives -/
theorem admits_below {a b : Version} {x : Triple} :
    (⟨⟨.lt, b⟩, ⟨.gte, a⟩⟩ : Range).Admits x ↔ (⟨a.triple, some b.triple⟩ : Interval).Mem x := by
  simp [Admits, Comparator.Admits, Interval.Mem, and_comm]

end Range

/-- Of the numbers of a version -/
def Triple.Fits (x : Triple) : Prop := x.major < UInt64.size ∧ x.minor < UInt64.size ∧ x.patch < UInt64.size

theorem Version.fits_triple (v : Version) : v.triple.Fits :=
  ⟨v.major.toNat_lt, v.minor.toNat_lt, v.patch.toNat_lt⟩

namespace Token
open Range (saturatingSucc maxU64)

def Means (r : Range) (i : Interval) : Prop := ∀ x : Triple, x.Fits → (r.Admits x ↔ i.Mem x)

theorem means_unset : Means .unset ⟨.zero, none⟩ := by
  intro x _
  have hbefore := x.not_before_zero
  simp [Range.unset, Range.Admits, Comparator.unset, Interval.Mem, hbefore]

variable {i : Interval} {p : PartialVersion} {t : TokenTag} {r : Range}

theorem means_between {a b : Version} (ha : a.triple = i.lower) (hb : some b.triple = i.upper) :
    Means ⟨⟨.gte, a⟩, ⟨.lt, b⟩⟩ i := by
  intro x _
  rw [Range.admits_between, ha, hb]

theorem toNat_eq_zero (n : UInt64) : n.toNat = 0 ↔ n = 0 := by
  rw [← UInt64.toNat_inj]
  rfl

theorem caretRange_means (hp : p.Below) :
    ∃ i, npmInterval .caret p = some i ∧ Means (caretRange p) i := by
  obtain ⟨major, minor, patch, tag⟩ := p
  obtain ⟨hmajor, hminor, hpatch⟩ := hp
  cases major with
  | none => exact ⟨_, rfl, means_unset⟩
  | some major =>
    have hnextMajor := Range.toNat_saturatingSucc (hmajor major rfl)
    cases minor with
    | none =>
      refine ⟨_, rfl, means_between rfl ?_⟩
      simp [Version.triple, Triple.nextMajor, PartialVersion.floor, Version.zero, hnextMajor]
    | some minor =>
      have hnextMinor := Range.toNat_saturatingSucc (hminor minor rfl)
      cases patch with
      | none =>
        refine ⟨_, rfl, ?_⟩
        simp only [caretRange, PartialVersion.floor, toNat_eq_zero]
        split_ifs with h0
        · exact means_between rfl (by simp [Version.triple, Triple.nextMinor, Version.zero, hnextMinor, h0])
        · exact means_between rfl (by simp [Version.triple, Triple.nextMajor, Version.zero, hnextMajor])
      | some patch =>
        have hnextPatch := Range.toNat_saturatingSucc (hpatch patch rfl)
        refine ⟨_, rfl, ?_⟩
        simp only [caretRange, PartialVersion.floor, toNat_eq_zero]
        split_ifs with h0 h1
        · exact means_between rfl (by simp [Version.triple, Triple.nextPatch, Version.zero, hnextPatch, h0, h1])
        · exact means_between rfl (by simp [Version.triple, Triple.nextMinor, Version.zero, hnextMinor, h0])
        · exact means_between rfl (by simp [Version.triple, Triple.nextMajor, Version.zero, hnextMajor])

theorem tildaRange_means (hp : p.Below) :
    ∃ i, npmInterval .tilda p = some i ∧ Means (tildaRange p) i := by
  obtain ⟨major, minor, patch, tag⟩ := p
  obtain ⟨hmajor, hminor, -⟩ := hp
  cases major with
  | none => exact ⟨_, rfl, means_unset⟩
  | some major =>
    have hnextMajor := Range.toNat_saturatingSucc (hmajor major rfl)
    cases minor with
    | none =>
      refine ⟨_, rfl, means_between rfl ?_⟩
      simp [Version.triple, Triple.nextMajor, PartialVersion.floor, Version.zero, hnextMajor]
    | some minor =>
      have hnextMinor := Range.toNat_saturatingSucc (hminor minor rfl)
      cases patch <;> refine ⟨_, rfl, means_between rfl ?_⟩ <;>
        simp [Version.triple, Triple.nextMinor, PartialVersion.floor, Version.zero, hnextMinor]

theorem means_only {op : Op} {w : Version} (hop : op ≠ .unset)
    (h : ∀ x : Triple, x.Fits → ((⟨op, w⟩ : Comparator).Admits x ↔ i.Mem x)) : Means (.only op w) i := by
  intro x hx
  rw [Range.admits_only hop, h x hx]

theorem means_everything : Means (.only .gte .zero) ⟨.zero, none⟩ := by
  refine means_only (by decide) fun x _ => ?_
  simp [Comparator.Admits, Interval.Mem, Version.triple, Version.zero, Triple.zero]

/-- A version with no operator before it, or with `=` -/
theorem versionRange_means (hp : p.Below) :
    ∃ i r, npmInterval .version p = some i ∧ toRange ⟨.version, p.wildcard⟩ p = .ok r ∧ Means r i := by
  obtain ⟨major, minor, patch, tag⟩ := p
  obtain ⟨hmajor, hminor, -⟩ := hp
  cases major with
  | none => exact ⟨_, _, rfl, rfl, means_everything⟩
  | some major =>
    have hnextMajor := Range.toNat_saturatingSucc (hmajor major rfl)
    cases minor with
    | none =>
      refine ⟨_, _, rfl, rfl, fun x _ => Range.admits_below.trans ?_⟩
      simp [Version.triple, Triple.nextMajor, PartialVersion.floor, PartialVersion.ceiling, PartialVersion.wildcard,
        PartialVersion.min, Version.zero, hnextMajor]
    | some minor =>
      have hnextMinor := Range.toNat_saturatingSucc (hminor minor rfl)
      cases patch with
      | none =>
        refine ⟨_, _, rfl, rfl, fun x _ => Range.admits_below.trans ?_⟩
        simp [Version.triple, Triple.nextMinor, PartialVersion.floor, PartialVersion.ceiling, PartialVersion.wildcard,
          PartialVersion.min, Version.zero, hnextMinor]
      | some patch =>
        refine ⟨_, _, rfl, rfl, means_only (by decide) fun x _ => ?_⟩
        exact Interval.mem_some.symm

/-- A comparison with a version of which at least the major is there -/
theorem comparison_means (ht : t = .gt ∨ t = .gte ∨ t = .lt ∨ t = .lte) (hmajor : p.major ≠ none) :
    ∃ i r, npmInterval t p = some i ∧ toRange ⟨t, p.wildcard⟩ p = .ok r ∧ Means r i := by
  obtain ⟨major, minor, patch, tag⟩ := p
  obtain ⟨major, rfl⟩ := Option.ne_none_iff_exists'.mp hmajor
  cases minor with
  | none =>
    have hnext {x : Triple} (hx : x.Fits) :
        x.Before ⟨major.toNat, UInt64.size - 1, UInt64.size⟩ ↔ x.Before (Triple.nextMajor ⟨major.toNat, 0, 0⟩) := by
      unfold Triple.Fits at hx
      unfold Triple.Before Triple.nextMajor
      simp only
      omega
    rcases ht with rfl | rfl | rfl | rfl <;> refine ⟨_, _, rfl, rfl, means_only (by decide) fun x hx => ?_⟩
    · exact (not_congr (hnext hx)).trans Interval.mem_none.symm
    · exact Interval.mem_none.symm
    · exact Interval.mem_from_zero.symm
    · exact (hnext hx).trans Interval.mem_from_zero.symm
  | some minor =>
    cases patch with
    | none =>
      have hnext {x : Triple} (hx : x.Fits) : x.Before ⟨major.toNat, minor.toNat, UInt64.size⟩ ↔
          x.Before (Triple.nextMinor ⟨major.toNat, minor.toNat, 0⟩) := by
        unfold Triple.Fits at hx
        unfold Triple.Before Triple.nextMinor
        simp only
        omega
      rcases ht with rfl | rfl | rfl | rfl <;> refine ⟨_, _, rfl, rfl, means_only (by decide) fun x hx => ?_⟩
      · exact (not_congr (hnext hx)).trans Interval.mem_none.symm
      · exact Interval.mem_none.symm
      · exact Interval.mem_from_zero.symm
      · exact (hnext hx).trans Interval.mem_from_zero.symm
    | some patch =>
      rcases ht with rfl | rfl | rfl | rfl <;> refine ⟨_, _, rfl, rfl, means_only (by decide) fun x _ => ?_⟩
      · exact Interval.mem_none.symm
      · exact Interval.mem_none.symm
      · exact Interval.mem_from_zero.symm
      · exact Interval.mem_from_zero.symm

/-- Whatever the operator is, a comparison with a wildcard admits the versions from the components that are there. -/
theorem comparison_major (ht : t = .gt ∨ t = .gte ∨ t = .lt ∨ t = .lte) (hmajor : p.major = none) :
    ∃ r, toRange ⟨t, p.wildcard⟩ p = .ok r ∧ Means r ⟨⟨0, (p.minor.getD 0).toNat, (p.patch.getD 0).toNat⟩, none⟩ := by
  obtain ⟨major, minor, patch, tag⟩ := p
  obtain rfl : major = none := hmajor
  have hmeans (w : Version) :
      Means ⟨⟨.gte, w⟩, ⟨.lte, {Version.zero with major := maxU64, minor := maxU64, patch := maxU64}⟩⟩
        ⟨w.triple, none⟩ := by
    intro x hx
    have hmax : x.Before ⟨UInt64.size - 1, UInt64.size - 1, UInt64.size⟩ := by
      unfold Triple.Fits at hx
      unfold Triple.Before
      simp only
      omega
    rw [Interval.mem_none]
    exact ⟨fun h => (h.resolve_left nofun).1, fun h => .inr ⟨h, .inr hmax⟩⟩
  rcases ht with rfl | rfl | rfl | rfl <;> exact ⟨_, rfl, hmeans _⟩

/-- The range and the interval of npm have the same releases. -/
def Agrees (t : TokenTag) (p : PartialVersion) : Prop :=
  ∃ r i, toRange ⟨t, p.wildcard⟩ p = .ok r ∧ npmInterval t p = some i ∧
    ∀ (v : Version) (rangeBuf versionBuf : List UInt8), v.tag.hasPre = false →
      (r.satisfies v rangeBuf versionBuf = true ↔ i.Mem v.triple)

/-- There is an operator, and a comparison with a wildcard has no upper end and no number after the wildcard. -/
def Desugars (t : TokenTag) (p : PartialVersion) : Prop :=
  t ≠ .none ∧
    (p.major = none → t ≠ .gt ∧ t ≠ .lt ∧ (t = .gte ∨ t = .lte → p.minor.getD 0 = 0 ∧ p.patch.getD 0 = 0))

theorem agrees_of_means (hi : npmInterval t p = some i) (hr : toRange ⟨t, p.wildcard⟩ p = .ok r) (h : Means r i) : Agrees t p :=
  ⟨r, i, hr, hi, fun v rangeBuf versionBuf hv => (r.satisfies_iff hv rangeBuf versionBuf).trans (h _ v.fits_triple)⟩

/-- Agreement at one release -/
theorem Agrees.mem_iff {i j : Interval} (h : Agrees t p)
    (hi : npmInterval t p = some i) (hr : toRange ⟨t, p.wildcard⟩ p = .ok r) (hj : Means r j) {v : Version}
    (hv : v.tag.hasPre = false) : j.Mem v.triple ↔ i.Mem v.triple := by
  obtain ⟨r', i', hr', hi', hagrees⟩ := h
  obtain rfl : r = r' := Except.ok.inj (hr.symm.trans hr')
  obtain rfl : i = i' := Option.some.inj (hi.symm.trans hi')
  rw [← hagrees v [] [] hv, r.satisfies_iff hv, hj _ v.fits_triple]

theorem npmInterval_major (hmajor : p.major = none) :
    npmInterval .gt p = some .empty ∧ npmInterval .lt p = some .empty ∧
      npmInterval .gte p = some ⟨.zero, none⟩ ∧ npmInterval .lte p = some ⟨.zero, none⟩ := by
  obtain ⟨major, minor, patch, tag⟩ := p
  obtain rfl : major = none := hmajor
  exact ⟨rfl, rfl, rfl, rfl⟩

/-- npm has nothing above and nothing below every version. -/
theorem not_agrees_empty {j : Interval} (hi : npmInterval t p = some .empty) (hr : toRange ⟨t, p.wildcard⟩ p = .ok r)
    (hj : Means r j) (hmem : j.Mem (Version.triple ⟨maxU64, maxU64, maxU64, .empty⟩)) : ¬Agrees t p :=
  fun h => Interval.not_mem_empty _ ((h.mem_iff hi hr hj rfl).mp hmem)

theorem mem_max {minor patch : UInt64} :
    (⟨⟨0, minor.toNat, patch.toNat⟩, none⟩ : Interval).Mem (Version.triple ⟨maxU64, maxU64, maxU64, .empty⟩) := by
  rw [Interval.mem_none]
  rintro (hlt | ⟨heq, -⟩)
  · exact Nat.not_lt_zero _ hlt
  · exact absurd heq (show ¬maxU64.toNat = 0 by decide)

theorem agrees_everything (hi : npmInterval t p = some ⟨.zero, none⟩) (hr : toRange ⟨t, p.wildcard⟩ p = .ok r)
    (hj : Means r ⟨⟨0, (p.minor.getD 0).toNat, (p.patch.getD 0).toNat⟩, none⟩) :
    Agrees t p ↔ p.minor.getD 0 = 0 ∧ p.patch.getD 0 = 0 := by
  constructor
  · intro h
    have hzero := (h.mem_iff (v := .zero) hi hr hj rfl).mpr (Interval.mem_none.mpr (Triple.not_before_zero _))
    rw [Interval.mem_none] at hzero
    have hminor : ¬0 < (p.minor.getD 0).toNat := fun hlt => hzero (.inr ⟨rfl, .inl hlt⟩)
    have hminor' := Nat.eq_zero_of_not_pos hminor
    have hpatch : ¬0 < (p.patch.getD 0).toNat := fun hlt => hzero (.inr ⟨rfl, .inr ⟨hminor'.symm, hlt⟩⟩)
    exact ⟨(toNat_eq_zero _).mp hminor', (toNat_eq_zero _).mp (Nat.eq_zero_of_not_pos hpatch)⟩
  · rintro ⟨hminor, hpatch⟩
    rw [hminor, hpatch] at hj
    exact agrees_of_means hi hr hj

theorem agrees_of_version (ht : t = .version ∨ t = .tilda ∨ t = .caret) (hp : p.Below) : Agrees t p := by
  rcases ht with rfl | rfl | rfl
  · obtain ⟨i, r, hi, hr, hmeans⟩ := versionRange_means hp
    exact agrees_of_means hi hr hmeans
  · obtain ⟨i, hi, hmeans⟩ := tildaRange_means hp
    exact agrees_of_means hi rfl hmeans
  · obtain ⟨i, hi, hmeans⟩ := caretRange_means hp
    exact agrees_of_means hi rfl hmeans

/-- With a wildcard in place of the major, a comparison agrees only if nothing is left for it to compare. -/
theorem agrees_comparison_iff (ht : t = .gt ∨ t = .gte ∨ t = .lt ∨ t = .lte) (hmajor : p.major = none) :
    Agrees t p ↔ t ≠ .gt ∧ t ≠ .lt ∧ (t = .gte ∨ t = .lte → p.minor.getD 0 = 0 ∧ p.patch.getD 0 = 0) := by
  obtain ⟨hgt, hlt, hgte, hlte⟩ := npmInterval_major hmajor
  obtain ⟨r, hr, hmeans⟩ := comparison_major ht hmajor
  rcases ht with rfl | rfl | rfl | rfl
  · exact iff_of_false (not_agrees_empty hgt hr hmeans mem_max) fun h => h.1 rfl
  · simp [agrees_everything hgte hr hmeans]
  · exact iff_of_false (not_agrees_empty hlt hr hmeans mem_max) fun h => h.2.1 rfl
  · simp [agrees_everything hlte hr hmeans]

/-- **A token and a partial version give the interval of npm, exactly when they desugar.** -/
theorem agrees_iff_desugars (t : TokenTag) (p : PartialVersion) (hp : p.Below) : Agrees t p ↔ Desugars t p := by
  have hversion (ht : t = .version ∨ t = .tilda ∨ t = .caret) (hnone : t ≠ .none) (hgt : t ≠ .gt) (hlt : t ≠ .lt)
      (hother : ¬(t = .gte ∨ t = .lte)) : Agrees t p ↔ Desugars t p :=
    iff_of_true (agrees_of_version ht hp) ⟨hnone, fun _ => ⟨hgt, hlt, fun h => absurd h hother⟩⟩
  have hcomparison (ht : t = .gt ∨ t = .gte ∨ t = .lt ∨ t = .lte) (hnone : t ≠ .none) : Agrees t p ↔ Desugars t p := by
    by_cases hmajor : p.major = none
    · rw [agrees_comparison_iff ht hmajor, Desugars, and_iff_right hnone, forall_prop_of_true hmajor]
    · obtain ⟨i, r, hi, hr, hmeans⟩ := comparison_means ht hmajor
      exact iff_of_true (agrees_of_means hi hr hmeans) ⟨hnone, fun h => absurd h hmajor⟩
  cases t with
  | none => exact iff_of_false (fun ⟨_, _, hr, _⟩ => nomatch hr) fun h => h.1 rfl
  | gt => exact hcomparison (by decide) (by decide)
  | gte => exact hcomparison (by decide) (by decide)
  | lt => exact hcomparison (by decide) (by decide)
  | lte => exact hcomparison (by decide) (by decide)
  | version => exact hversion (by decide) (by decide) (by decide) (by decide) (by decide)
  | tilda => exact hversion (by decide) (by decide) (by decide) (by decide) (by decide)
  | caret => exact hversion (by decide) (by decide) (by decide) (by decide) (by decide)

/-- `^1.2.3` -/
theorem agrees_iff_desugars_caret :
    Desugars .caret ⟨some 1, some 2, some 3, .empty⟩ ∧ Agrees .caret ⟨some 1, some 2, some 3, .empty⟩ := by
  have hdesugars : Desugars .caret ⟨some 1, some 2, some 3, .empty⟩ := ⟨by decide, nofun⟩
  have hbelow : (⟨some 1, some 2, some 3, .empty⟩ : PartialVersion).Below := by simp [PartialVersion.Below]
  exact ⟨hdesugars, (agrees_iff_desugars .caret ⟨some 1, some 2, some 3, .empty⟩ hbelow).mpr hdesugars⟩

/-- `>*` admits 0.0.0, where the interval of npm is empty. -/
theorem not_agrees_gtWildcard :
    PartialVersion.empty.Below ∧ PartialVersion.empty.wildcard = .major ∧ ¬Agrees .gt .empty ∧
      npmInterval .gt .empty = some .empty ∧
      ∃ r, toRange ⟨.gt, .major⟩ .empty = .ok r ∧ r.satisfies .zero [] [] = true := by
  refine ⟨⟨nofun, nofun, nofun⟩, rfl, ?_, rfl, _, rfl, by decide⟩
  obtain ⟨r, hr, hmeans⟩ := comparison_major (t := .gt) (p := .empty) (.inl rfl) rfl
  exact not_agrees_empty rfl hr hmeans mem_max

end Token
end Funbun.Semver
