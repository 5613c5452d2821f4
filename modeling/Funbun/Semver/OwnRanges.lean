import Funbun.Semver.Prereleases
import Funbun.Semver.RoundTrip

/-! A version and the ranges that are made of its own text.

The lower bounds are the version itself. The upper bound of a caret or a tilde is the version with one number more, and
there is no number above the largest. -/
namespace Funbun.Semver
open Std

/-- What may stand before the text of a version -/
inductive SimpleOp where
  | none | eql | caret | tilda | gte | lte
  deriving DecidableEq

namespace SimpleOp

def text : SimpleOp → List UInt8
  | none => []
  | eql => [61]
  | caret => [94]
  | tilda => [126]
  | gte => [62, 61]
  | lte => [60, 61]

def tag : SimpleOp → TokenTag
  | none | eql => .version
  | caret => .caret
  | tilda => .tilda
  | gte => .gte
  | lte => .lte

/-- The range that is read -/
def range (op : SimpleOp) (p : PartialVersion) : Range :=
  match op with
  | none | eql => .only .eql p.min
  | caret => Token.caretRange p
  | tilda => Token.tildaRange p
  | gte => .only .gte p.min
  | lte => .only .lte p.min

end SimpleOp

section Parse
variable (wyhash : List UInt8 → UInt64)

/-- The operator is read, up to the text of the version. -/
theorem parseLead_op (op : SimpleOp) {d : UInt8} (hd : isDigit d = true) (rest : List UInt8) :
    ∃ c, (op.text ++ d :: rest)[0]? = some c ∧ ∃ isOr,
      parseLead (op.text ++ d :: rest) c 0 .none false = ⟨op.text.length, op.tag, isOr, false⟩ := by
  have hskip (before : List UInt8) : skipWhile isSpace (before ++ d :: rest) before.length = before.length :=
    skipWhile_of_not (by rw [List.getElem?_append_right (Nat.le_refl _), Nat.sub_self]; rfl) (isSpace_of_isDigit hd)
  have hne {c : UInt8} (hc : isDigit c = false) : d ≠ c := fun heq => Bool.false_ne_true (hc.symm.trans (heq ▸ hd))
  cases op with
  | none =>
    have hseparator : isSeparator d = false := by
      rw [isSeparator, beq_false_of_ne (hne rfl), beq_false_of_ne (hne rfl)]
      rfl
    refine ⟨d, rfl, true, ?_⟩
    rw [parseLead, if_neg (hne rfl), if_neg (hne rfl), hseparator, if_neg Bool.false_ne_true, if_neg (hne rfl),
      if_neg (hne rfl), hd]
    rfl
  | eql => exact ⟨61, rfl, true, congrArg (Lead.mk · _ _ _) (hskip [61])⟩
  | caret => exact ⟨94, rfl, false, congrArg (Lead.mk · _ _ _) (hskip [94])⟩
  | tilda =>
    have hnext : (SimpleOp.tilda.text ++ d :: rest)[0 + 1]? ≠ some 62 := fun h => hne rfl (Option.some.inj h)
    refine ⟨126, rfl, false, ?_⟩
    rw [parseLead, if_neg (by decide), if_neg (by decide), if_neg (by decide), if_pos rfl, if_neg hnext]
    exact congrArg (Lead.mk · _ _ _) (hskip [126])
  | gte => exact ⟨62, rfl, false, congrArg (Lead.mk · _ _ _) (hskip [62, 61])⟩
  | lte => exact ⟨60, rfl, false, congrArg (Lead.mk · _ _ _) (hskip [60, 61])⟩

theorem hyphenate_end (input : List UInt8) : hyphenate input input.length = .ok none := by
  have hat : at? (fun c => isSpace c || isDash c) input input.length = false := by
    rw [at?, List.getElem?_eq_none (Nat.le_refl _)]
    rfl
  rw [hyphenate, hat, if_neg Bool.false_ne_true]
  rfl

/-- The first comparator -/
theorem addComparator_op (op : SimpleOp) {r : ParseResult} (hr : r.wildcard = .none) (isOr flagPre flagBuild : Bool) :
    addComparator ⟨.ofRange .unset, [], flagPre, flagBuild⟩ ⟨op.tag, r.wildcard⟩ 0 isOr r =
      .ok ⟨.ofRange (op.range r.version), [], flagPre, flagBuild⟩ := by
  rw [addComparator, hr]
  cases op <;> rfl

/-- What is read where the text of a version starts -/
def readAt (s : SlicedString) (x : Stored) : PartialVersion :=
  ⟨some x.1.major, some x.1.minor, some x.1.patch, ⟨Tag.kept wyhash (s.from' x.1.numbers.length) 0 x.pre?, .empty⟩⟩

theorem Stored.text_cons (x : Stored) : ∃ d rest, x.text = d :: rest ∧ isDigit d = true := by
  obtain ⟨d, rest, hcons⟩ := List.exists_cons_of_ne_nil (formatNumber_ne_nil x.1.major)
  have hd : isDigit d = true := (Bool.and_eq_true_iff.mp (List.all_cons ▸ hcons ▸ formatNumber_digits x.1.major)).1
  have htext := x.text_eq
  rw [Version.numbers, hcons] at htext
  exact ⟨d, _, htext, hd⟩

variable {s : SlicedString} {x : Stored}

/-- The only turn, from an operator to the end of the text of a version -/
theorem parseTurn_op {op : SimpleOp} (hs : s.input = op.text ++ x.text) (hpre : x.Valid)
    (hbuild : x.build? = none) (hsize : x.text.length < UInt32.size) {c : UInt8} {isOr : Bool}
    (hlead : parseLead s.input c 0 .none false = ⟨op.text.length, op.tag, isOr, false⟩) :
    parseTurn wyhash s ⟨0, .empty, .none, 0, false⟩ c =
      .ok ⟨s.input.length + 1, ⟨.ofRange (op.range (readAt wyhash (s.from' op.text.length) x)), [],
        (readAt wyhash (s.from' op.text.length) x).tag.hasPre, false⟩, op.tag, 1, false⟩ := by
  have hrest : (s.from' op.text.length).input = x.text := by
    show s.input.drop op.text.length = _
    rw [hs, List.drop_left]
  generalize hread : readAt wyhash (s.from' op.text.length) x = p
  have hversion : Version.parse wyhash (s.from' op.text.length) = .ok ⟨.none, true, p, x.text.length⟩ := by
    have hparse := Version.parse_text wyhash hrest hpre (fun build hmem => nomatch hbuild.symm.trans hmem)
      (fun build hmem => nomatch hbuild.symm.trans hmem) hsize
    rw [hbuild] at hparse
    rw [← hread]
    exact hparse
  have hflags : Group.empty.addFlags p.min.tag = ⟨.ofRange .unset, [], p.tag.hasPre, false⟩ := by
    rw [← hread]
    rfl
  have hadd := addComparator_op op (r := ⟨.none, true, p, x.text.length⟩) rfl isOr p.tag.hasPre false
  have hlength : op.text.length + x.text.length = s.input.length := by rw [hs, List.length_append]
  have htag : op.tag ≠ .none := by cases op <;> decide
  unfold parseTurn
  simp only [hlead]
  rw [if_neg Bool.false_ne_true, s.sub_length (by omega)]
  simp only [bind, Except.bind, hversion, hlength, hyphenate_end]
  rw [if_neg htag, hflags, hadd]
  rfl

/-- What is read from an operator and the text of a version -/
theorem parse_op (op : SimpleOp) (hs : s.input = op.text ++ x.text) (hpre : x.Valid)
    (hbuild : x.build? = none) (hsize : x.text.length < UInt32.size) :
    parse wyhash s = .ok ⟨.ofRange (op.range (readAt wyhash (s.from' op.text.length) x)), [],
      (readAt wyhash (s.from' op.text.length) x).tag.hasPre, false⟩ := by
  obtain ⟨d, rest, hcons, hd⟩ := x.text_cons
  obtain ⟨c, hc, isOr, hlead⟩ := parseLead_op op hd rest
  rw [← hcons, ← hs] at hc hlead
  have hlt := lt_of_getElem? hc
  have hend : s.input[s.input.length + 1]? = none := List.getElem?_eq_none (Nat.le_succ _)
  obtain ⟨fuel, hfuel⟩ := Nat.exists_eq_succ_of_ne_zero hlt.ne'
  rw [parse, hfuel, parseLoop, hc]
  simp only
  rw [parseTurn_op wyhash hs hpre hbuild hsize hlead]
  show parseLoop wyhash s (fuel + 1) _ = _
  rw [parseLoop, hend]

theorem Stored.preKey_of_pre? {x y : Stored} (h : x.pre? = y.pre?) :
    x.1.tag.hasPre = y.1.tag.hasPre ∧ Tag.preKey x = Tag.preKey y := by
  unfold pre? at h
  unfold Tag.preKey Tag.preParts
  cases hx : x.1.tag.hasPre <;> cases hy : y.1.tag.hasPre <;> rw [hx, hy] at h
  · exact ⟨rfl, rfl⟩
  · cases h
  · cases h
  · exact ⟨rfl, by rw [Option.some.inj h]⟩

/-- The pre-release that is read is the pre-release. -/
theorem preKey_readAt {op : SimpleOp} (hs : s.input = op.text ++ x.text)
    (haddr : s.slice.addr = s.buf) (hpre : x.Valid) (hsize : s.input.length < UInt32.size) :
    (readAt wyhash (s.from' op.text.length) x).min.tag.hasPre = x.1.tag.hasPre ∧
      Tag.preKey ((readAt wyhash (s.from' op.text.length) x).min, s.input) = Tag.preKey x := by
  have hplace : ∀ bytes ∈ x.pre?,
      (s.input.drop (op.text.length + x.1.numbers.length + (0 + 1))).take bytes.length = bytes := by
    intro bytes hbytes
    have hdrop : s.input.drop (op.text.length + x.1.numbers.length + (0 + 1)) =
        x.text.drop (x.1.numbers.length + (0 + 1)) := by
      rw [Nat.add_assoc, hs, List.drop_append, List.drop_eq_nil_of_le (Nat.le_add_right _ _), List.nil_append,
        Nat.add_sub_cancel_left]
    rw [hdrop]
    exact x.pre?_place bytes hbytes
  have hkept : Stored.pre? ((readAt wyhash (s.from' op.text.length) x).min, s.input) = x.pre? := by
    have hoff : s.slice.addr + op.text.length + x.1.numbers.length = s.buf + (op.text.length + x.1.numbers.length) := by
      rw [haddr, Nat.add_assoc]
    exact Tag.kept_present wyhash hoff (Stored.keepable_pre hpre) hplace hsize
  exact Stored.preKey_of_pre? hkept

end Parse

/-! ### Bounds -/

open Range (saturatingSucc maxU64)

theorem saturatingSucc_max : saturatingSucc maxU64 = maxU64 := if_pos rfl

theorem toNat_saturatingSucc_of_ne {n : UInt64} (h : n ≠ maxU64) : (saturatingSucc n).toNat = n.toNat + 1 := by
  have hne : n.toNat ≠ UInt64.size - 1 := fun heq => h (UInt64.toNat_inj.mp heq)
  exact Range.toNat_saturatingSucc (Nat.lt_of_le_of_ne (Nat.le_sub_one_of_lt n.toNat_lt) hne)

/-- A version is before its bound, or a pre-release of it. -/
def Version.Reaches (v u : Version) : Prop := v.triple.Before u.triple ∨ v.tag.hasPre = true ∧ v.triple = u.triple

theorem Version.reaches_iff (v : Version) {u : Version} (hu : u.tag.hasPre = false) (uBuf vBuf : List UInt8) :
    (⟨.lt, u⟩ : Comparator).satisfies v uBuf vBuf = true ↔ v.Reaches u := by
  unfold Reaches
  cases hv : v.tag.hasPre with
  | true => rw [triple_of_below hv hu, and_iff_right rfl]
  | false =>
    rw [Comparator.satisfies_iff hv]
    simp [Comparator.Admits]

/-- There is a number above the one that the bound has one more of, or the version is a pre-release of the bound. -/
def SimpleOp.HasRoom (op : SimpleOp) (v : Version) : Prop :=
  match op with
  | .caret =>
    if v.major ≠ 0 then v.major ≠ maxU64 ∨ v.tag.hasPre = true ∧ v.minor = 0 ∧ v.patch = 0
    else if v.minor ≠ 0 then v.minor ≠ maxU64 ∨ v.tag.hasPre = true ∧ v.patch = 0
    else v.patch ≠ maxU64 ∨ v.tag.hasPre = true
  | .tilda => v.minor ≠ maxU64 ∨ v.tag.hasPre = true ∧ v.patch = 0
  | .none | .eql | .gte | .lte => True

namespace Version

theorem reaches_nextMajor (v : Version) : v.Reaches {Version.zero with major := saturatingSucc v.major} ↔
    v.major ≠ maxU64 ∨ v.tag.hasPre = true ∧ v.minor = 0 ∧ v.patch = 0 := by
  by_cases hmax : v.major = maxU64
  · simp [Reaches, Triple.Before, triple, zero, hmax, saturatingSucc_max, Token.toNat_eq_zero]
  · simp [Reaches, Triple.Before, triple, zero, hmax, toNat_saturatingSucc_of_ne hmax]

theorem reaches_nextMinor (v : Version) :
    v.Reaches {Version.zero with major := v.major, minor := saturatingSucc v.minor} ↔
      v.minor ≠ maxU64 ∨ v.tag.hasPre = true ∧ v.patch = 0 := by
  by_cases hmax : v.minor = maxU64
  · simp [Reaches, Triple.Before, triple, zero, hmax, saturatingSucc_max, Token.toNat_eq_zero]
  · simp [Reaches, Triple.Before, triple, zero, hmax, toNat_saturatingSucc_of_ne hmax]

theorem reaches_nextPatch (v : Version) (hmajor : v.major = 0) (hminor : v.minor = 0) :
    v.Reaches {Version.zero with patch := saturatingSucc v.patch} ↔ v.patch ≠ maxU64 ∨ v.tag.hasPre = true := by
  by_cases hmax : v.patch = maxU64
  · simp [Reaches, Triple.Before, triple, zero, hmax, saturatingSucc_max, hmajor, hminor]
  · simp [Reaches, Triple.Before, triple, zero, hmax, toNat_saturatingSucc_of_ne hmax, hmajor, hminor]

end Version

namespace SimpleOp

/-- What the range of a version looks at: the version, and its bound for a caret or a tilde. -/
def bound? (op : SimpleOp) (v : Version) : Option Version :=
  match op with
  | caret =>
    if v.major ≠ 0 then some {Version.zero with major := saturatingSucc v.major}
    else if v.minor ≠ 0 then some {Version.zero with minor := saturatingSucc v.minor}
    else some {Version.zero with patch := saturatingSucc v.patch}
  | tilda => some {Version.zero with major := v.major, minor := saturatingSucc v.minor}
  | none | eql | gte | lte => Option.none

theorem hasRoom_iff (op : SimpleOp) (v : Version) : op.HasRoom v ↔ ∀ u ∈ op.bound? v, v.Reaches u := by
  cases op with
  | caret =>
    unfold HasRoom bound?
    simp only
    split
    · rw [← v.reaches_nextMajor]
      simp
    · rename_i hmajor
      have hmajor : v.major = 0 := by simpa using hmajor
      split
      · rw [← v.reaches_nextMinor, hmajor]
        simp [Version.zero]
      · rename_i hminor
        have hminor : v.minor = 0 := by simpa using hminor
        rw [← v.reaches_nextPatch hmajor hminor]
        simp
  | tilda =>
    unfold HasRoom bound?
    rw [← v.reaches_nextMinor]
    simp
  | _ => simp [HasRoom, bound?]

/-- The comparators of the range: one that the version is at, and one for the bound. -/
theorem comparators_range (op : SimpleOp) (v : Version) :
    ∃ o, (o = .eql ∨ o = .gte ∨ o = .lte) ∧
      (op.range ⟨some v.major, some v.minor, some v.patch, v.tag⟩).comparators =
        ⟨o, v⟩ :: ((op.bound? v).map (Comparator.mk .lt)).toList := by
  cases op with
  | caret =>
    refine ⟨.gte, .inr (.inl rfl), ?_⟩
    obtain ⟨major, minor, patch, tag⟩ := v
    unfold range bound? Token.caretRange
    by_cases hmajor : major = 0
    · subst hmajor
      by_cases hminor : minor = 0
      · subst hminor
        rfl
      · simp only [hminor, ne_eq, not_true_eq_false, not_false_eq_true, if_true, if_false]
        rfl
    · simp only [hmajor, ne_eq, not_false_eq_true, if_true, if_false]
      rfl
  | none => exact ⟨.eql, .inl rfl, rfl⟩
  | eql => exact ⟨.eql, .inl rfl, rfl⟩
  | tilda => exact ⟨.gte, .inr (.inl rfl), rfl⟩
  | gte => exact ⟨.gte, .inr (.inl rfl), rfl⟩
  | lte => exact ⟨.lte, .inr (.inr rfl), rfl⟩

theorem bound?_pre {op : SimpleOp} {v u : Version} (h : u ∈ op.bound? v) : u.tag.hasPre = false := by
  cases op with
  | caret =>
    unfold bound? at h
    simp only at h
    split_ifs at h <;> cases h <;> rfl
  | tilda => cases h; rfl
  | _ => cases h

end SimpleOp

/-- A version is in a list of one range if every comparator has it, and one names it when it is a pre-release. -/
theorem Group.satisfies_ofRange {r : Range} {flagPre flagBuild : Bool} {v : Version}
    (hnames : v.tag.hasPre = true → ∃ c ∈ r.comparators, Range.Names c v.triple) (gBuf vBuf : List UInt8) :
    (⟨.ofRange r, [], flagPre, flagBuild⟩ : Group).satisfies v gBuf vBuf = true ↔
      ∀ c ∈ r.comparators, c.satisfies v gBuf vBuf = true := by
  cases hv : v.tag.hasPre with
  | true =>
    rw [satisfies_iff_comparators rfl hv]
    have hcomparators : (Query.ofRange r).comparators = r.comparators := List.append_nil _
    rw [hcomparators, and_iff_left (hnames hv)]
  | false =>
    rw [← r.satisfies_iff_comparators]
    simp [satisfies, hv, Query.satisfies, Query.ranges, Query.ofRange]

/-- The range of a version, where the tag may lie in another buffer -/
theorem SimpleOp.satisfies_range_iff (op : SimpleOp) {v : Version} {tag : Tag} {vBuf tagBuf : List UInt8}
    (hpre : tag.hasPre = v.tag.hasPre) (hkey : Tag.preKey ({v with tag}, tagBuf) = Tag.preKey (v, vBuf))
    (flagPre flagBuild : Bool) :
    (⟨.ofRange (op.range ⟨some v.major, some v.minor, some v.patch, tag⟩), [], flagPre, flagBuild⟩ : Group).satisfies v
      tagBuf vBuf = true ↔ op.HasRoom v := by
  obtain ⟨o, ho, hcomparators⟩ := op.comparators_range {v with tag}
  have hself : (⟨o, {v with tag}⟩ : Comparator).satisfies v tagBuf vBuf = true := by
    have horder := Stored.orderWithoutBuild_then (v, vBuf) ({v with tag}, tagBuf)
    have htriple : v.triple.order ({v with tag} : Version).triple = .eq := Triple.order_eq_eq.mpr rfl
    have hkeys : Tag.compareKeys (Tag.preKey (v, vBuf)) (Tag.preKey ({v with tag}, tagBuf)) = .eq := by
      rw [hkey]
      exact ReflCmp.compare_self
    rw [Stored.orderWithoutBuild, htriple, hkeys] at horder
    rw [Comparator.satisfies, horder]
    rcases ho with rfl | rfl | rfl <;> rfl
  have hnames : v.tag.hasPre = true → ∃ c ∈ (op.range ⟨some v.major, some v.minor, some v.patch, tag⟩).comparators,
      Range.Names c v.triple := by
    intro hv
    exact ⟨⟨o, {v with tag}⟩, hcomparators ▸ List.mem_cons_self, hpre.trans hv, rfl⟩
  rw [Group.satisfies_ofRange hnames, hcomparators, List.forall_mem_cons, and_iff_right hself, op.hasRoom_iff]
  show (∀ c ∈ ((op.bound? v).map (Comparator.mk .lt)).toList, c.satisfies v tagBuf vBuf = true) ↔ _
  have hbound {u : Version} (hu : u ∈ op.bound? v) := v.reaches_iff (SimpleOp.bound?_pre hu) tagBuf vBuf
  constructor
  · intro h u hu
    exact (hbound hu).mp (h ⟨.lt, u⟩ (by simpa using hu))
  · intro h c hc
    obtain ⟨u, hu, rfl⟩ := Option.map_eq_some_iff.mp (Option.mem_toList.mp hc)
    exact (hbound hu).mpr (h u hu)

/-- The version is in the list that is read from its text after the operator. -/
def SatisfiesOwn (wyhash : List UInt8 → UInt64) (op : SimpleOp) (x : Stored) : Prop :=
  ∀ addr, ∃ g, parse wyhash ⟨addr, ⟨addr, op.text ++ x.text⟩⟩ = .ok g ∧ g.satisfies x.1 (op.text ++ x.text) x.2 = true

theorem Stored.length_text {x : Stored} (hbuild : x.build? = none) : x.text.length < 2 ^ 31 + 64 := by
  have hnumbers : x.1.numbers.length ≤ 62 := by
    have hmajor := length_formatNumber x.1.major
    have hminor := length_formatNumber x.1.minor
    have hpatch := length_formatNumber x.1.patch
    simp only [Version.numbers, List.length_append, List.length_singleton]
    omega
  have hpre : (Tag.marked 45 x.pre?).length ≤ 2 ^ 31 := by
    unfold pre?
    split
    · exact SemverString.length_slice _ _
    · exact Nat.zero_le _
  rw [x.text_eq, hbuild, List.length_append, List.length_append]
  show x.1.numbers.length + ((Tag.marked 45 x.pre?).length + 0) < _
  omega

/-- **A version is in its own range, exactly if there is room for the bound.** -/
theorem satisfiesOwn_iff (wyhash : List UInt8 → UInt64) (op : SimpleOp) (x : Stored) (hpre : x.Valid)
    (hbuild : x.build? = none) : SatisfiesOwn wyhash op x ↔ op.HasRoom x.1 := by
  have hlength := Stored.length_text hbuild
  have hop : op.text.length ≤ 2 := by cases op <;> decide
  have hsize : (op.text ++ x.text).length < UInt32.size := by
    rw [List.length_append]
    exact (show op.text.length + x.text.length < 2 ^ 31 + 66 by omega).trans (by decide)
  have hiff (addr : Nat) : (∃ g, parse wyhash ⟨addr, ⟨addr, op.text ++ x.text⟩⟩ = .ok g ∧
      g.satisfies x.1 (op.text ++ x.text) x.2 = true) ↔ op.HasRoom x.1 := by
    have hparse := parse_op wyhash (s := ⟨addr, ⟨addr, op.text ++ x.text⟩⟩) op rfl hpre hbuild (by
      rw [List.length_append] at hsize
      exact (Nat.le_add_left _ _).trans_lt hsize)
    obtain ⟨hhasPre, hpreKey⟩ := preKey_readAt wyhash (s := ⟨addr, ⟨addr, op.text ++ x.text⟩⟩) rfl rfl hpre hsize
    have hrange := op.satisfies_range_iff (v := x.1) hhasPre hpreKey
    constructor
    · rintro ⟨g, hg, hsatisfies⟩
      obtain rfl := Except.ok.inj (hparse.symm.trans hg)
      exact (hrange _ _).mp hsatisfies
    · exact fun hroom => ⟨_, hparse, (hrange _ _).mpr hroom⟩
  exact ⟨fun h => (hiff 0).mp (h 0), fun h addr => (hiff addr).mpr h⟩

/-- `~1.2.3-rc.1` -/
theorem satisfiesOwn_iff_tilda : SatisfiesOwn (fun _ => 0) .tilda (.ofShort 1 2 3 [114, 99, 46, 49] []) :=
  (satisfiesOwn_iff (fun _ => 0) .tilda (.ofShort 1 2 3 [114, 99, 46, 49] []) (by decide +kernel) (by decide +kernel)).mpr
    (.inl (by decide))

/-- `^18446744073709551615.0.1` does not admit 18446744073709551615.0.1. -/
theorem not_satisfiesOwn_caret :
    let x := Stored.ofShort maxU64 0 1 [] []
    x.Valid ∧ x.build? = none ∧ ¬SatisfiesOwn (fun _ => 0) .caret x := by
  refine ⟨by decide +kernel, by decide +kernel, fun h => ?_⟩
  obtain ⟨g, hg, hsatisfies⟩ := h 0
  have hparse : parse (fun _ => 0) ⟨0, ⟨0, SimpleOp.caret.text ++ (Stored.ofShort maxU64 0 1 [] []).text⟩⟩ =
      .ok ⟨.ofRange ⟨⟨.gte, ⟨maxU64, 0, 1, .empty⟩⟩, ⟨.lt, ⟨maxU64, 0, 0, .empty⟩⟩⟩, [], false, false⟩ := by
    decide +kernel
  obtain rfl := Except.ok.inj (hparse.symm.trans hg)
  revert hsatisfies
  decide +kernel

end Funbun.Semver
