import Funbun.Semver.Intervals
import Funbun.Semver.Query
import Funbun.Semver.StringBuilderProofs

/-! What lists of ranges admit among pre-releases.

A pre-release has to be in every range, and one comparator has to name a pre-release of the same release. That need not be
the comparator that bounds the list. -/
namespace Funbun.Semver
open Library.Descending Std

namespace Range

/-- What is looked at: a range with no left has nothing. -/
def comparators (r : Range) : List Comparator :=
  if r.hasLeft then if r.hasRight then [r.left, r.right] else [r.left] else []

theorem satisfies_iff_comparators (r : Range) (v : Version) (rBuf vBuf : List UInt8) :
    r.satisfies v rBuf vBuf = true ↔ ∀ c ∈ r.comparators, c.satisfies v rBuf vBuf = true := by
  unfold satisfies comparators
  cases r.hasLeft <;> cases r.hasRight <;> simp

/-- The comparator names a pre-release of the release. -/
def Names (c : Comparator) (x : Triple) : Prop := c.version.tag.hasPre = true ∧ c.version.triple = x

instance (c : Comparator) (x : Triple) : Decidable (Names c x) := inferInstanceAs (Decidable (_ ∧ _))

theorem matchesPre_iff (c : Comparator) (v : Version) : matchesPre c v = true ↔ Names c v.triple := by
  simp only [matchesPre, Bool.and_eq_true, beq_iff_eq, Names, Version.triple, Triple.mk.injEq, UInt64.toNat_inj]
  constructor
  · rintro ⟨⟨⟨hpre, hpatch⟩, hminor⟩, hmajor⟩
    exact ⟨hpre, hmajor.symm, hminor.symm, hpatch.symm⟩
  · rintro ⟨hpre, hmajor, hminor, hpatch⟩
    exact ⟨⟨⟨hpre, hpatch.symm⟩, hminor.symm⟩, hmajor.symm⟩

theorem satisfiesPre_fst (r : Range) (v : Version) (rBuf vBuf : List UInt8) (preMatched : Bool) :
    (r.satisfiesPre v rBuf vBuf preMatched).1 = r.satisfies v rBuf vBuf := by
  unfold satisfiesPre satisfies
  cases r.hasLeft <;> rfl

theorem satisfiesPre_snd (r : Range) (v : Version) (rBuf vBuf : List UInt8) (preMatched : Bool) :
    (r.satisfiesPre v rBuf vBuf preMatched).2 = true ↔ preMatched = true ∨ ∃ c ∈ r.comparators, Names c v.triple := by
  unfold satisfiesPre comparators
  cases r.hasLeft <;> cases r.hasRight <;> simp [matchesPre_iff, or_assoc]

end Range

namespace Query

def comparators (q : Query) : List Comparator := q.ranges.flatMap Range.comparators

/-- Every range has the version, and one matched before or matches now. -/
theorem satisfiesPreLoop_iff (v : Version) (qBuf vBuf : List UInt8) (ranges : List Range) (preMatched : Bool) :
    ((satisfiesPreLoop v qBuf vBuf ranges preMatched).1 = true ∧ (satisfiesPreLoop v qBuf vBuf ranges preMatched).2 = true) ↔
      (∀ r ∈ ranges, r.satisfies v qBuf vBuf = true) ∧
        (preMatched = true ∨ ∃ r ∈ ranges, ∃ c ∈ r.comparators, Range.Names c v.triple) := by
  induction ranges generalizing preMatched with
  | nil => simp [satisfiesPreLoop]
  | cons r rest ih =>
    have hfst := r.satisfiesPre_fst v qBuf vBuf preMatched
    have hsnd := r.satisfiesPre_snd v qBuf vBuf preMatched
    rw [satisfiesPreLoop]
    cases hr : r.satisfiesPre v qBuf vBuf preMatched with
    | mk satisfied matched =>
      rw [hr] at hfst hsnd
      cases satisfied with
      | true =>
        show (satisfiesPreLoop v qBuf vBuf rest matched).1 = true ∧ (satisfiesPreLoop v qBuf vBuf rest matched).2 = true ↔ _
        rw [ih matched, hsnd, List.forall_mem_cons, List.exists_mem_cons_iff, ← hfst, or_assoc]
        simp
      | false =>
        refine iff_of_false (fun h => nomatch h.1) fun h => ?_
        have hin := h.1 r List.mem_cons_self
        rw [← hfst] at hin
        cases hin

end Query

variable {v : Version} {c : Comparator}

/-- A list of comparators has a pre-release exactly if all of them do and one of them names its release. -/
theorem Group.satisfies_iff_comparators {g : Group} (hg : g.next = []) (hv : v.tag.hasPre = true) (gBuf vBuf : List UInt8) :
    g.satisfies v gBuf vBuf = true ↔
      (∀ c ∈ g.head.comparators, c.satisfies v gBuf vBuf = true) ∧ ∃ c ∈ g.head.comparators, Range.Names c v.triple := by
  have hloop := Query.satisfiesPreLoop_iff v gBuf vBuf g.head.ranges false
  rw [satisfies, hg, List.any_cons, List.any_nil, Bool.or_false, if_pos hv, Bool.and_eq_true]
  refine hloop.trans ?_
  simp only [Range.satisfies_iff_comparators, Query.comparators, List.mem_flatMap, Bool.false_eq_true, false_or]
  constructor
  · rintro ⟨hall, r, hr, c, hc, hnames⟩
    exact ⟨fun c ⟨r, hr, hc⟩ => hall r hr c hc, c, ⟨r, hr, hc⟩, hnames⟩
  · rintro ⟨hall, c, ⟨r, hr, hc⟩, hnames⟩
    exact ⟨fun r hr c hc => hall c ⟨r, hr, hc⟩, r, hr, c, hc, hnames⟩

/-! ### Upper bounds -/

namespace Range

/-- The version that a range ends before -/
def upper? (r : Range) : Option Version :=
  if r.left.op = .lt then some r.left.version else if r.right.op = .lt then some r.right.version else none

end Range

namespace Token

/-- A caret, a tilde or an x-range -/
def Ranged (t : Token) : Prop := t.tag = .caret ∨ t.tag = .tilda ∨ t.tag = .version ∧ t.wildcard ≠ .none

/-- From a version on, and before one with no tag -/
def Bounded (r : Range) : Prop := ∃ a b : Version, r = ⟨⟨.gte, a⟩, ⟨.lt, b⟩⟩ ∧ b.tag = .empty

theorem caretRange_bounded (p : PartialVersion) : caretRange p = .unset ∨ Bounded (caretRange p) := by
  unfold caretRange
  cases p.major with
  | none => exact .inl rfl
  | some major =>
    cases p.minor with
    | none => exact .inr ⟨_, _, rfl, rfl⟩
    | some minor =>
      cases p.patch with
      | none => simp only; split <;> exact .inr ⟨_, _, rfl, rfl⟩
      | some patch => simp only; split_ifs <;> exact .inr ⟨_, _, rfl, rfl⟩

theorem tildaRange_bounded (p : PartialVersion) : tildaRange p = .unset ∨ Bounded (tildaRange p) := by
  unfold tildaRange
  cases p.major with
  | none => exact .inl rfl
  | some major => cases p.minor <;> exact .inr ⟨_, _, rfl, rfl⟩

theorem initWildcard_upper {v u : Version} {wildcard : Wildcard} (hne : wildcard ≠ .none)
    (hu : (Range.initWildcard v wildcard).upper? = some u) :
    u.tag = .empty ∧ ⟨.lt, u⟩ ∈ (Range.initWildcard v wildcard).comparators := by
  cases wildcard with
  | none => exact absurd rfl hne
  | major => cases hu
  | minor => cases hu; exact ⟨rfl, List.mem_cons_self⟩
  | patch => cases hu; exact ⟨rfl, List.mem_cons_self⟩

theorem Bounded.upper {r : Range} (h : r = .unset ∨ Bounded r) {u : Version} (hu : r.upper? = some u) :
    u.tag = .empty ∧ ⟨.lt, u⟩ ∈ r.comparators := by
  rcases h with rfl | ⟨a, b, rfl, hb⟩
  · cases hu
  · cases hu
    exact ⟨hb, List.mem_cons_of_mem _ List.mem_cons_self⟩

/-- The bound has no pre-release, and a comparator of the range is below it. -/
theorem upper_spec {t : Token} (ht : t.Ranged) {p : PartialVersion} {r : Range} (hr : t.toRange p = .ok r) {u : Version}
    (hu : r.upper? = some u) : u.tag.hasPre = false ∧ ⟨.lt, u⟩ ∈ r.comparators := by
  obtain ⟨tag, wildcard⟩ := t
  have hempty : u.tag = .empty ∧ ⟨.lt, u⟩ ∈ r.comparators := by
    rcases ht with rfl | rfl | ⟨rfl, hne⟩
    · cases hr
      exact Bounded.upper (caretRange_bounded p) hu
    · cases hr
      exact Bounded.upper (tildaRange_bounded p) hu
    · rw [toRange, if_pos hne] at hr
      cases hr
      exact initWildcard_upper hne hu
  exact ⟨hempty.1 ▸ rfl, hempty.2⟩

end Token

theorem Version.triple_of_below {v u : Version} (hv : v.tag.hasPre = true) (hu : u.tag.hasPre = false)
    (uBuf vBuf : List UInt8) :
    (⟨.lt, u⟩ : Comparator).satisfies v uBuf vBuf = true ↔ v.triple.Before u.triple ∨ v.triple = u.triple := by
  have horder := Stored.orderWithoutBuild_then (v, vBuf) (u, uBuf)
  rw [Stored.orderWithoutBuild] at horder
  have hkeys : Tag.compareKeys (Tag.preKey (v, vBuf)) (Tag.preKey (u, uBuf)) = .lt := by
    rw [Tag.preKey, Tag.preKey, hv, hu]
    rfl
  rw [Comparator.satisfies, horder, hkeys, ← Triple.order_eq_lt, ← Triple.order_eq_eq]
  cases v.triple.order u.triple <;> simp

/-! ### Pre-releases of a bound -/

namespace Comparator

/-- The parts of the pre-release that a comparator names -/
def parts (c : Comparator) (buf : List UInt8) : List (List UInt8) := c.version.tag.preParts buf

/-- Where what a comparator has of the pre-releases of its release begins: `0` is the first, and `p.0` follows `p`. -/
def floor (c : Comparator) (buf : List UInt8) : List (List UInt8) :=
  match c.op with
  | .eql | .gte => c.parts buf
  | .gt => c.parts buf ++ [[48]]
  | .lt | .lte | .unset => [[48]]

/-- The first pre-release behind what it has -/
def ceiling (c : Comparator) (buf : List UInt8) : Option (List (List UInt8)) :=
  match c.op with
  | .lt => some (c.parts buf)
  | .eql | .lte => some (c.parts buf ++ [[48]])
  | .gt | .gte => none
  | .unset => some [[48]]

/-- A comparator of another version is on the side of the release where its pre-releases are. -/
def Spans (c : Comparator) (x : Triple) : Prop :=
  if c.version.triple.Before x then c.op = .gt ∨ c.op = .gte else c.op = .lt ∨ c.op = .lte

end Comparator

/-- Parts of pre-releases in their order -/
abbrev compareParts : List (List UInt8) → List (List UInt8) → Ordering := List.compareLex Tag.comparePart

/-- The comparators leave a pre-release of the release: one names it, none keeps all of it out, and what those have that name
it begins, for each, before it ends for any. -/
structure Leave (cs : List Comparator) (x : Triple) (buf : List UInt8) : Prop where
  names : ∃ c ∈ cs, Range.Names c x
  spans : ∀ c ∈ cs, ¬Range.Names c x → c.Spans x
  overlap : ∀ c ∈ cs, Range.Names c x → ∀ d ∈ cs, Range.Names d x → ∀ upper ∈ d.ceiling buf,
    compareParts (c.floor buf) upper = .lt

theorem Tag.least_part (part : List UInt8) : (Tag.comparePart [48] part).isLE := by
  show (compareSum compare compare (.inl 0) (Tag.partKey part)).isLE
  cases Tag.partKey part with
  | inl n => cases n <;> rfl
  | inr text => rfl

/-- Between the two ends -/
theorem Comparator.satisfies_named (hc : c.version.tag.hasPre = true)
    (hv : v.tag.hasPre = true) (htriple : v.triple = c.version.triple) (cBuf vBuf : List UInt8) :
    c.satisfies v cBuf vBuf = true ↔ (compareParts (c.floor cBuf) (v.tag.preParts vBuf)).isLE ∧
      ∀ upper ∈ c.ceiling cBuf, compareParts (v.tag.preParts vBuf) upper = .lt := by
  have horder := Stored.orderWithoutBuild_then (v, vBuf) (c.version, cBuf)
  rw [Stored.orderWithoutBuild, Tag.preKey, Tag.preKey, if_pos hv, if_pos hc, Triple.order_eq_eq.mpr htriple] at horder
  have hkeys : v.orderWithoutBuild c.version vBuf cBuf = compareParts (v.tag.preParts vBuf) (c.parts cBuf) := horder
  have hleast : (compareParts [[48]] (v.tag.preParts vBuf)).isLE := by
    refine (compareLex_append_least Tag.least_part [] _).mpr ?_
    obtain ⟨part, rest, heq⟩ := List.exists_cons_of_ne_nil (List.splitOn_ne_nil 46 (v.tag.pre.value.slice vBuf))
    rw [Tag.preParts, heq]
    rfl
  have hnext : (compareParts (c.parts cBuf ++ [[48]]) (v.tag.preParts vBuf)).isLE ↔
      compareParts (c.parts cBuf) (v.tag.preParts vBuf) = .lt := compareLex_append_least Tag.least_part _ _
  have hswap (p : List (List UInt8)) :
      compareParts (v.tag.preParts vBuf) p = (compareParts p (v.tag.preParts vBuf)).swap := OrientedCmp.eq_swap
  generalize hown : compareParts (c.parts cBuf) (v.tag.preParts vBuf) = own at hnext
  generalize hend : compareParts (c.parts cBuf ++ [[48]]) (v.tag.preParts vBuf) = next at hnext
  generalize hzero : compareParts [[48]] (v.tag.preParts vBuf) = least at hleast
  rw [Comparator.satisfies, hkeys, floor, ceiling]
  cases c.op <;> simp only [Option.mem_some_iff, forall_eq', reduceCtorEq, Option.not_mem_none, false_implies, implies_true,
    hswap, hown, hend, hzero]
  all_goals cases own <;> cases next <;> cases least <;> simp at hnext hleast ⊢

/-- Of another version, all or nothing -/
theorem Comparator.satisfies_unnamed (hv : v.tag.hasPre = true)
    (hc : ¬Range.Names c v.triple) (cBuf vBuf : List UInt8) : c.satisfies v cBuf vBuf = true ↔ c.Spans v.triple := by
  have horder := Stored.orderWithoutBuild_then (v, vBuf) (c.version, cBuf)
  rw [Stored.orderWithoutBuild] at horder
  rw [Comparator.satisfies, Spans, horder]
  cases hcmp : v.triple.order c.version.triple with
  | lt =>
    have hnot : ¬c.version.triple.Before v.triple := by
      rw [← Triple.order_eq_gt, hcmp]
      decide
    simp [hnot]
  | gt =>
    have hbefore := Triple.order_eq_gt.mp hcmp
    simp [hbefore]
  | eq =>
    have heq := Triple.order_eq_eq.mp hcmp
    have hpre : c.version.tag.hasPre = false := Bool.eq_false_iff.mpr fun h => hc ⟨h, heq.symm⟩
    have hkeys : Tag.compareKeys (Tag.preKey (v, vBuf)) (Tag.preKey (c.version, cBuf)) = .lt := by
      rw [Tag.preKey, Tag.preKey, hv, hpre]
      rfl
    have hnot : ¬c.version.triple.Before v.triple := heq ▸ Triple.not_before_self _
    simp [hkeys, hnot]

/-- Where a comparator that names a pre-release begins, there is one, if it is short enough to be stored. -/
theorem Comparator.exists_floor (hc : c.version.tag.hasPre = true) {buf : List UInt8}
    (hshort : (c.version.tag.pre.value.slice buf).length + 2 < 2 ^ 31) :
    ∃ (tag : Tag) (tagBuf : List UInt8), tag.hasPre = true ∧ tag.preParts tagBuf = c.floor buf := by
  have hstored (text : List UInt8) (hne : text ≠ []) (hlength : text.length < 2 ^ 31) :
      ∃ (tag : Tag) (tagBuf : List UInt8), tag.hasPre = true ∧ tag.preParts tagBuf = text.splitOn 46 := by
    have hslice : (SemverString.packed 0 ⟨0, text⟩).slice text = text :=
      @SemverString.slice_packed_at 0 0 text text (Nat.zero_add _).le (List.take_length ..) (by decide) hlength
    refine ⟨⟨⟨.packed 0 ⟨0, text⟩, 0⟩, ⟨.packed 0 ⟨0, text⟩, 0⟩⟩, text, ?_, ?_⟩
    · refine Bool.not_eq_true' _ ▸ Bool.eq_false_iff.mpr fun hempty => hne ?_
      rw [← hslice]
      exact SemverString.slice_of_isEmpty hempty text
    · rw [Tag.preParts, hslice]
  unfold floor
  cases c.op with
  | eql | gte => exact ⟨c.version.tag, buf, hc, rfl⟩
  | gt =>
    obtain ⟨tag, tagBuf, hpre, hparts⟩ := hstored (c.version.tag.pre.value.slice buf ++ 46 :: [48]) (by simp)
      (by rw [List.length_append]; exact hshort)
    refine ⟨tag, tagBuf, hpre, hparts.trans ?_⟩
    rw [List.splitOn_append_cons_self]
    rfl
  | lt | lte | unset => exact hstored [48] (by decide) (by decide)

section Leave
variable {cs : List Comparator} {x : Triple} {buf : List UInt8}

theorem Leave.of_satisfies {v : Version} {vBuf : List UInt8} (hv : v.tag.hasPre = true) (htriple : v.triple = x)
    (hall : ∀ c ∈ cs, c.satisfies v buf vBuf = true) (hnames : ∃ c ∈ cs, Range.Names c x) : Leave cs x buf := by
  subst htriple
  refine ⟨hnames, fun c hc hnot => (Comparator.satisfies_unnamed hv hnot buf vBuf).mp (hall c hc), ?_⟩
  intro c hc hcx d hd hdx upper hupper
  have hfloor := ((Comparator.satisfies_named hcx.1 hv hcx.2.symm buf vBuf).mp (hall c hc)).1
  have hceiling := ((Comparator.satisfies_named hdx.1 hv hdx.2.symm buf vBuf).mp (hall d hd)).2 upper hupper
  exact TransCmp.lt_of_isLE_of_lt hfloor hceiling

/-- The greatest of their floors is left. -/
theorem Leave.exists_version (h : Leave cs x buf) (hx : ∃ u : Version, u.triple = x)
    (hshort : ∀ c ∈ cs, (c.version.tag.pre.value.slice buf).length + 2 < 2 ^ 31) :
    ∃ (v : Version) (vBuf : List UInt8), v.tag.hasPre = true ∧ v.triple = x ∧ ∀ c ∈ cs, c.satisfies v buf vBuf = true := by
  obtain ⟨c₀, hc₀, hnames₀⟩ := h.names
  have hmem {c : Comparator} : c ∈ cs.filter (Range.Names · x) ↔ c ∈ cs ∧ Range.Names c x := by
    rw [List.mem_filter, decide_eq_true_eq]
  obtain ⟨c, hfilter, hgreatest⟩ : ∃ c ∈ cs.filter (Range.Names · x), ∀ d ∈ cs.filter (Range.Names · x),
      (comparing (Comparator.floor · buf) compareParts d c).isLE :=
    exists_greatest (List.ne_nil_of_mem (hmem.mpr ⟨hc₀, hnames₀⟩))
  obtain ⟨hc, hnames⟩ := hmem.mp hfilter
  obtain ⟨tag, vBuf, hpre, hparts⟩ := c.exists_floor hnames.1 (hshort c hc)
  obtain ⟨u, rfl⟩ := hx
  refine ⟨{u with tag}, vBuf, hpre, rfl, fun d hd => ?_⟩
  by_cases hdx : Range.Names d u.triple
  · rw [Comparator.satisfies_named (v := {u with tag}) hdx.1 hpre hdx.2.symm, hparts]
    exact ⟨hgreatest d (hmem.mpr ⟨hd, hdx⟩), h.overlap c hc hnames d hd hdx⟩
  · exact (Comparator.satisfies_unnamed (v := {u with tag}) hpre hdx buf vBuf).mpr (h.spans d hd hdx)

end Leave

/-- **Pre-releases in a list that a caret, a tilde or an x-range bounds are before the bound, exactly if** the comparators of
the list leave no pre-release of the bound itself. -/
theorem Group.before_upper_iff (g : Group) (hg : g.next = []) (t : Token) (ht : t.Ranged) (p : PartialVersion) (r : Range)
    (hr : t.toRange p = .ok r) (hmem : r ∈ g.head.ranges) (u : Version) (hu : r.upper? = some u) (gBuf : List UInt8) :
    (¬Leave g.head.comparators u.triple gBuf →
      ∀ (v : Version) (vBuf : List UInt8), v.tag.hasPre = true → g.satisfies v gBuf vBuf = true →
        v.triple.Before u.triple) ∧
    ((∀ c ∈ g.head.comparators, (c.version.tag.pre.value.slice gBuf).length + 2 < 2 ^ 31) →
      (∀ (v : Version) (vBuf : List UInt8), v.tag.hasPre = true → g.satisfies v gBuf vBuf = true →
        v.triple.Before u.triple) → ¬Leave g.head.comparators u.triple gBuf) := by
  obtain ⟨hupre, hcomparator⟩ := Token.upper_spec ht hr hu
  constructor
  · intro hleave v vBuf hv hsatisfies
    obtain ⟨hall, hnames⟩ := (g.satisfies_iff_comparators hg hv gBuf vBuf).mp hsatisfies
    have hin := hall _ (List.mem_flatMap.mpr ⟨r, hmem, hcomparator⟩)
    rcases (Version.triple_of_below hv hupre gBuf vBuf).mp hin with hlt | heq
    · exact hlt
    · exact absurd (Leave.of_satisfies hv heq hall (heq ▸ hnames)) hleave
  · intro hshort hbefore hleave
    obtain ⟨v, vBuf, hv, htriple, hall⟩ := hleave.exists_version ⟨u, rfl⟩ hshort
    have hsatisfies := (g.satisfies_iff_comparators hg hv gBuf vBuf).mpr ⟨hall, htriple.symm ▸ hleave.names⟩
    exact Triple.not_before_self _ (htriple ▸ hbefore v vBuf hv hsatisfies)

/-- A version whose pre-release is all that its buffer holds, or short enough to need none -/
def preVersion (major minor patch : UInt64) (pre : List UInt8) : Version :=
  ⟨major, minor, patch, ⟨⟨.init 0 ⟨0, pre⟩, 0⟩, .empty⟩⟩

/-- `^1.2.3` alone does not admit 2.0.0-beta. -/
theorem Group.before_upper_iff_caret :
    let r : Range := ⟨⟨.gte, ⟨1, 2, 3, .empty⟩⟩, ⟨.lt, ⟨2, 0, 0, .empty⟩⟩⟩
    let g : Group := ⟨.ofRange r, [], false, false⟩
    let beta := preVersion 2 0 0 [98, 101, 116, 97]
    Token.toRange ⟨.caret, .none⟩ ⟨some 1, some 2, some 3, .empty⟩ = .ok r ∧ ¬Leave g.head.comparators ⟨2, 0, 0⟩ [] ∧
      (g.satisfies beta [] [98, 101, 116, 97] = true → beta.triple.Before ⟨2, 0, 0⟩) := by
  intro r g beta
  have hiff := before_upper_iff g rfl ⟨.caret, .none⟩ (.inl rfl) ⟨some 1, some 2, some 3, .empty⟩ r rfl List.mem_cons_self
    ⟨2, 0, 0, .empty⟩ rfl []
  have hnames : ¬∃ c ∈ g.head.comparators, Range.Names c ⟨2, 0, 0⟩ := by decide +kernel
  exact ⟨rfl, fun h => hnames h.names, hiff.1 (fun h => hnames h.names) beta _ (by decide +kernel)⟩

/-- `>=2.0.0-alpha ^1.2.3` admits 2.0.0-beta: the first comparator names a pre-release of what bounds the second. -/
theorem Group.not_before_upper :
    let text : List UInt8 := [62, 61, 50, 46, 48, 46, 48, 45, 97, 108, 112, 104, 97, 32, 94, 49, 46, 50, 46, 51]
    let beta := preVersion 2 0 0 [98, 101, 116, 97]
    let g : Group := ⟨⟨.only .gte (preVersion 2 0 0 [97, 108, 112, 104, 97]),
      [⟨⟨.gte, ⟨1, 2, 3, .empty⟩⟩, ⟨.lt, ⟨2, 0, 0, .empty⟩⟩⟩]⟩, [], true, false⟩
    parse (fun _ => 0) ⟨0, ⟨0, text⟩⟩ = .ok g ∧
      Token.toRange ⟨.caret, .none⟩ ⟨some 1, some 2, some 3, .empty⟩ = .ok ⟨⟨.gte, ⟨1, 2, 3, .empty⟩⟩, ⟨.lt, ⟨2, 0, 0, .empty⟩⟩⟩ ∧
      g.satisfies beta text [98, 101, 116, 97] = true ∧ ¬beta.triple.Before ⟨2, 0, 0⟩ := by
  decide +kernel

end Funbun.Semver
