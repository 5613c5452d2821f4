import Mathlib.Data.List.TakeWhile
import Mathlib.Data.Nat.Digits.Lemmas
import Funbun.Semver.Precedence
import Funbun.Semver.StringBuilderProofs
import Funbun.Semver.Totality

/-! The text of a version is read back.

Numbers end at dots, and the tag runs to the end. A hyphen within a build starts a pre-release instead, which is why a
version is read back exactly if its build has none. -/
namespace Funbun.Semver
open Precedence

/-! ### Numbers -/

theorem formatNumber_ne_nil (n : UInt64) : formatNumber n ≠ [] := by
  rw [formatNumber]
  split
  · exact List.cons_ne_nil 48 []
  · rename_i hne
    have hnat : n.toNat ≠ 0 := fun h => hne (UInt64.toNat_inj.mp h)
    simpa [Nat.digits_eq_nil_iff_eq_zero] using hnat

/-- A digit of a number, as a byte -/
theorem toNat_digit {d : Nat} (hd : d < 10) : (UInt8.ofNat (48 + d)).toNat = 48 + d := by
  rw [UInt8.toNat_ofNat']
  exact Nat.mod_eq_of_lt (by omega)

theorem isDigit_digit {d : Nat} (hd : d < 10) : isDigit (.ofNat (48 + d)) = true := by
  have htoNat := toNat_digit hd
  simp only [isDigit, Bool.and_eq_true, decide_eq_true_eq, UInt8.le_iff_toNat_le, htoNat]
  exact ⟨Nat.le_add_right 48 d, by show 48 + d ≤ 57; omega⟩

theorem formatNumber_digits (n : UInt64) : (formatNumber n).all isDigit = true := by
  rw [formatNumber]
  split
  · decide
  · rw [List.all_eq_true]
    intro c hc
    obtain ⟨d, hd, rfl⟩ := List.mem_map.mp hc
    exact isDigit_digit (Nat.digits_lt_base (by decide) (List.mem_reverse.mp hd))

/-- 64 bits need at most 20 digits. -/
theorem length_formatNumber (n : UInt64) : (formatNumber n).length ≤ 20 := by
  rw [formatNumber]
  split
  · decide
  · rw [List.length_map, List.length_reverse, Nat.digits_length_le_iff (by decide)]
    exact n.toNat_lt.trans (by decide)

theorem value_formatNumber (n : UInt64) : value (formatNumber n) = n.toNat := by
  rw [formatNumber]
  split
  · rename_i hzero
    rw [hzero]
    rfl
  · rw [value, List.foldl_map, List.foldl_reverse]
    conv => rhs; rw [← Nat.ofDigits_digits 10 n.toNat, Nat.ofDigits_eq_foldr]
    have hdigits : ∀ d ∈ Nat.digits 10 n.toNat, d < 10 := fun d hd => Nat.digits_lt_base (by decide) hd
    generalize Nat.digits 10 n.toNat = digits at hdigits
    induction digits with
    | nil => rfl
    | cons d digits ih =>
      rw [List.foldr_cons, List.foldr_cons, ih fun d hd => hdigits d (List.mem_cons_of_mem _ hd),
        toNat_digit (hdigits d List.mem_cons_self)]
      simp only [Nat.cast_id]
      omega

theorem isX_of_isDigit {c : UInt8} (h : isDigit c = true) : isX c = false := by
  rw [Bool.eq_false_iff]
  intro hx
  simp only [isX, Bool.or_eq_true, beq_iff_eq] at hx
  rcases hx with (rfl | rfl) | rfl <;> exact absurd h (by decide)

theorem isSpace_of_isDigit {c : UInt8} (h : isDigit c = true) : isSpace c = false := by
  rw [Bool.eq_false_iff]
  intro hspace
  obtain rfl : c = 32 := by simpa [isSpace] using hspace
  exact absurd h (by decide)

theorem isBreak_of_isDigit {c : UInt8} (h : isDigit c = true) : isBreak c = false := by
  rw [Bool.eq_false_iff]
  intro hbreak
  simp only [isBreak, Bool.or_eq_true, beq_iff_eq] at hbreak
  rcases hbreak with ((((rfl | rfl) | rfl) | rfl) | rfl) | rfl <;> exact absurd h (by decide)

theorem collectDigits_of_digits {digits : List UInt8} (h : digits.all isDigit = true) (acc : List UInt8)
    (hlength : acc.length + digits.length ≤ 20) : collectDigits digits acc = some (acc ++ digits) := by
  induction digits generalizing acc with
  | nil => rw [collectDigits, List.append_nil]
  | cons c rest ih =>
    obtain ⟨hc, hrest⟩ := Bool.and_eq_true_iff.mp (List.all_cons ▸ h)
    have hx := isX_of_isDigit hc
    rw [List.length_cons] at hlength
    rw [collectDigits, hx, hc, if_neg (by decide), if_pos rfl, if_neg (by omega),
      ih hrest _ (by rw [List.length_append, List.length_singleton]; omega), List.append_assoc]
    rfl

/-- The number that was formatted is read. -/
theorem parseVersionNumber_formatNumber (n : UInt64) : parseVersionNumber (formatNumber n) = some n := by
  have hdigits := formatNumber_digits n
  have hvalue : parseDigits 0 (formatNumber n) = some n.toNat := by
    rw [Tag.parseDigits_of_digits hdigits, ← value_formatNumber n]
    rfl
  have hascii : parseAscii (formatNumber n) = some n.toNat := by
    have hends : ¬(formatNumber n = [] ∨ (formatNumber n).head? = some 95 ∨ (formatNumber n).getLast? = some 95) := by
      have hall := List.all_eq_true.mp hdigits
      rintro (hnil | hhead | hlast)
      · exact formatNumber_ne_nil n hnil
      · exact absurd (hall 95 (List.mem_of_mem_head? hhead)) (by decide)
      · exact absurd (hall 95 (List.mem_of_mem_getLast? hlast)) (by decide)
    rw [parseAscii, if_neg hends, hvalue, Option.bind_some, if_pos n.toNat_lt]
  have hcollect := collectDigits_of_digits hdigits [] (by simpa using length_formatNumber n)
  rw [parseVersionNumber, hcollect, List.nil_append]
  cases hcons : formatNumber n with
  | nil => exact absurd hcons (formatNumber_ne_nil n)
  | cons c rest =>
    show some (UInt64.ofNat ((parseAscii (c :: rest)).getD 0)) = some n
    rw [← hcons, hascii, Option.getD_some, UInt64.ofNat_toNat]

/-! ### Components -/

section Parse
variable (wyhash : List UInt8 → UInt64)

namespace SlicedString

/-- The rest of the input, from `i` on -/
def from' (s : SlicedString) (i : Nat) : SlicedString := ⟨s.buf, s.slice.addr + i, s.input.drop i⟩

theorem sub_append (s : SlicedString) (before part rest : List UInt8) (hs : s.input = before ++ part ++ rest) :
    s.sub before.length (before.length + part.length) = .ok ⟨s.buf, s.slice.addr + before.length, part⟩ := by
  have hle : before.length + part.length ≤ s.input.length := by
    rw [hs, List.length_append, List.length_append]
    exact Nat.le_add_right _ _
  rw [sub, if_pos ⟨Nat.le_add_right _ _, hle⟩, hs, List.append_assoc, List.drop_left', Nat.add_sub_cancel_left,
    List.take_left']
  · rfl
  · rfl

theorem sub_length (s : SlicedString) {i : Nat} (h : i ≤ s.input.length) : s.sub i s.input.length = .ok (s.from' i) := by
  rw [sub, if_pos ⟨h, Nat.le_refl _⟩, from', List.take_of_length_le]
  rw [List.length_drop]

end SlicedString

variable {p : UInt8 → Bool} {rest tail : List UInt8} {s : SlicedString} {v : Version} {c : UInt8}

theorem takeWhile_of_head (h : rest.head?.all (!p ·) = true) :
    rest.takeWhile p = [] := by
  cases rest with
  | nil => rfl
  | cons c rest => exact List.takeWhile_cons_of_neg (by simpa using h)

/-- From within a part to its end -/
theorem skipWhile_append {before part rest : List UInt8} {j : Nat} (hj : before.length ≤ j)
    (hj' : j ≤ before.length + part.length) (hpart : part.all p = true) (hrest : rest.head?.all (!p ·) = true) :
    skipWhile p (before ++ part ++ rest) j = before.length + part.length := by
  have hdrop : (before ++ part ++ rest).drop j = part.drop (j - before.length) ++ rest := by
    rw [List.append_assoc, List.drop_append, List.drop_eq_nil_of_le hj, List.nil_append,
      List.drop_append_of_le_length (by omega)]
  have htake : (part.drop (j - before.length) ++ rest).takeWhile p = part.drop (j - before.length) := by
    rw [List.takeWhile_append_of_pos fun c hc => List.all_eq_true.mp hpart c (List.mem_of_mem_drop hc),
      takeWhile_of_head hrest, List.append_nil]
  rw [skipWhile, hdrop, htake, List.length_drop]
  omega

theorem at?_length {before rest : List UInt8} : at? p (before ++ rest) before.length = rest.head?.any p := by
  rw [at?, List.getElem?_append_right (Nat.le_refl _), Nat.sub_self, List.head?_eq_getElem?]

/-- One turn of the loop, at a number -/
theorem Version.parseLoop_number (before digits rest : List UInt8) (part : Nat)
    (hs : s.input = before ++ digits ++ rest) (hdigits : digits.all isDigit = true) (hne : digits ≠ [])
    (hrest : rest.head?.all (!isDigit ·) = true) (fuel : Nat) (r : ParseResult) :
    parseLoop wyhash s (fuel + 1) before.length part r =
      parseLoop wyhash s fuel
        (if rest.head?.any isDot = true ∧ nextPart part ≠ 3 then before.length + digits.length + 1
          else before.length + digits.length) (nextPart part) (r.setPart part (parseVersionNumber digits)) := by
  obtain ⟨c, tail, rfl⟩ := List.exists_cons_of_ne_nil hne
  have hc : isDigit c = true := (Bool.and_eq_true_iff.mp (List.all_cons ▸ hdigits)).1
  have hget : s.input[before.length]? = some c := by
    rw [hs, List.append_assoc, List.getElem?_append_right (Nat.le_refl _), Nat.sub_self]
    rfl
  have hspace := isSpace_of_isDigit hc
  have hbreak := isBreak_of_isDigit hc
  have hstop : skipWhile isDigit s.input (before.length + 1) = before.length + (c :: tail).length := by
    rw [hs]
    exact skipWhile_append (Nat.le_succ _) (by simp) hdigits hrest
  have hsub := s.sub_append before (c :: tail) rest hs
  have hat : at? isDot s.input (before.length + (c :: tail).length) = rest.head?.any isDot := by
    rw [hs, ← List.length_append, at?_length]
  rw [parseLoop, hget]
  simp only [hspace, hbreak, hc, hstop, hsub, hat]
  rw [if_neg Bool.false_ne_true, if_neg Bool.false_ne_true, if_pos trivial]
  rfl

/-- The three numbers of a version -/
def Version.numbers (v : Version) : List UInt8 :=
  formatNumber v.major ++ [46] ++ formatNumber v.minor ++ [46] ++ formatNumber v.patch

/-- What was read once the numbers are -/
def Version.core (v : Version) : ParseResult := ⟨.none, true, ⟨some v.major, some v.minor, some v.patch, .empty⟩, 0⟩

theorem Version.parseLoop_numbers (hs : s.input = v.numbers ++ tail) (htail : tail.head?.all (!isDigit ·) = true) (fuel : Nat) :
    parseLoop wyhash s (fuel + 3) 0 0 .empty = parseLoop wyhash s fuel v.numbers.length 3 v.core := by
  have hmajor := parseLoop_number wyhash [] (formatNumber v.major)
    ([46] ++ formatNumber v.minor ++ [46] ++ formatNumber v.patch ++ tail) 0
    (by rw [hs, numbers]; simp only [List.append_assoc, List.nil_append]) (formatNumber_digits _) (formatNumber_ne_nil _)
    rfl (fuel + 2) .empty
  have hminor := parseLoop_number wyhash (formatNumber v.major ++ [46]) (formatNumber v.minor)
    ([46] ++ formatNumber v.patch ++ tail) 1
    (by rw [hs, numbers]; simp only [List.append_assoc]) (formatNumber_digits _) (formatNumber_ne_nil _)
    rfl (fuel + 1) (ParseResult.empty.setPart 0 (parseVersionNumber (formatNumber v.major)))
  have hpatch := parseLoop_number wyhash (formatNumber v.major ++ [46] ++ formatNumber v.minor ++ [46])
    (formatNumber v.patch) tail 2 (by rw [hs, numbers]) (formatNumber_digits _)
    (formatNumber_ne_nil _) htail fuel ((ParseResult.empty.setPart 0 (parseVersionNumber (formatNumber v.major))).setPart 1
      (parseVersionNumber (formatNumber v.minor)))
  have hfirst : ([] : List UInt8).length + (formatNumber v.major).length + 1 = (formatNumber v.major ++ [46]).length := by
    simp
  have hsecond : (formatNumber v.major ++ [46]).length + (formatNumber v.minor).length + 1 =
      (formatNumber v.major ++ [46] ++ formatNumber v.minor ++ [46]).length := by
    simp only [List.length_append, List.length_singleton]
  rw [if_pos ⟨rfl, by decide⟩, hfirst] at hmajor
  rw [if_pos ⟨rfl, by decide⟩, hsecond] at hminor
  rw [if_neg fun h => h.2 rfl, ← List.length_append, parseVersionNumber_formatNumber, parseVersionNumber_formatNumber,
    parseVersionNumber_formatNumber] at hpatch
  rw [parseVersionNumber_formatNumber] at hmajor hminor
  rw [parseVersionNumber_formatNumber] at hminor
  exact hmajor.trans (hminor.trans hpatch)

theorem Version.length_numbers (v : Version) : 5 ≤ v.numbers.length := by
  have hmajor := List.length_pos_of_ne_nil (formatNumber_ne_nil v.major)
  have hminor := List.length_pos_of_ne_nil (formatNumber_ne_nil v.minor)
  have hpatch := List.length_pos_of_ne_nil (formatNumber_ne_nil v.patch)
  simp only [numbers, List.length_append, List.length_singleton]
  omega

theorem Version.skipLead_numbers (v : Version) (tail : List UInt8) : skipLead (v.numbers ++ tail) = 0 := by
  obtain ⟨c, rest, hcons⟩ := List.exists_cons_of_ne_nil (formatNumber_ne_nil v.major)
  have hdigit : isDigit c = true := (Bool.and_eq_true_iff.mp (List.all_cons ▸ hcons ▸ formatNumber_digits v.major)).1
  have hlead : (isWhitespace c || isSeparator c) = false := by
    rw [Bool.eq_false_iff]
    intro hlead
    simp only [isWhitespace, isSeparator, Bool.or_eq_true, beq_iff_eq] at hlead
    rcases hlead with ((((((rfl | rfl) | rfl) | rfl) | rfl) | rfl) | rfl | rfl) <;> exact absurd hdigit (by decide)
  rw [skipLead, numbers, hcons]
  simp only [List.cons_append, List.findIdx?_cons, hlead]
  rfl

/-- The loop, up to what follows the numbers -/
theorem Version.parse_eq (hs : s.input = v.numbers ++ tail) (htail : tail.head?.all (!isDigit ·) = true) :
    parse wyhash s = (do
      let (r, part, i) ← parseLoop wyhash s (s.input.length - 3 + 1) v.numbers.length 3 v.core
      let r := if r.wildcard = .none then {r with wildcard := .ofPart part} else r
      if i < UInt32.size then .ok {r with len := i} else .error .intCast) := by
  have hlength : 5 ≤ s.input.length := by
    rw [hs, List.length_append]
    exact v.length_numbers.trans (Nat.le_add_right _ _)
  have hne : s.input ≠ [] := by
    intro hnil
    rw [hnil] at hlength
    exact absurd hlength (by decide)
  have hloop := parseLoop_numbers wyhash hs htail (s.input.length - 3 + 1)
  rw [show s.input.length - 3 + 1 + 3 = s.input.length + 1 by omega] at hloop
  rw [parse, if_neg hne, ← hloop, hs, skipLead_numbers]

/-- The text of a version that only has its numbers -/
theorem Version.parse_numbers (hs : s.input = v.numbers) (hsize : v.numbers.length < UInt32.size) :
    parse wyhash s = .ok {v.core with len := v.numbers.length} := by
  have hend : s.input[v.numbers.length]? = none := by rw [hs, List.getElem?_eq_none (Nat.le_refl _)]
  rw [parse_eq wyhash (hs.trans (List.append_nil _).symm) rfl, parseLoop, hend]
  show (if v.numbers.length < UInt32.size then _ else _) = _
  rw [if_pos hsize]
  rfl

/-- The text of a version with a tag -/
theorem Version.parse_tag (hs : s.input = v.numbers ++ c :: tail) (hc : c = 45 ∨ c = 43) :
    parse wyhash s = (do
      let tagged ← Tag.parse wyhash (s.from' v.numbers.length)
      if v.numbers.length + tagged.len < UInt32.size then
        .ok {v.core with version.tag := tagged.tag, len := v.numbers.length + tagged.len}
      else .error .intCast) := by
  have hget : s.input[v.numbers.length]? = some c := by
    rw [hs, List.getElem?_append_right (Nat.le_refl _), Nat.sub_self]
    rfl
  have hdigit : isDigit c = false := by rcases hc with rfl | rfl <;> decide
  have hspace : isSpace c = false := by rcases hc with rfl | rfl <;> decide
  have hbreak : isBreak c = false := by rcases hc with rfl | rfl <;> decide
  have hdot : isDot c = false := by rcases hc with rfl | rfl <;> decide
  have htag : (isDash c || isPlus c) = true := by rcases hc with rfl | rfl <;> decide
  have hle : v.numbers.length ≤ s.input.length := by
    rw [hs, List.length_append]
    exact Nat.le_add_right _ _
  have hskip : skipWhile isSpace s.input v.numbers.length = v.numbers.length := skipWhile_of_not hget hspace
  rw [parse_eq wyhash hs (by simpa using hdigit), parseLoop, hget]
  simp only [hspace, hbreak, hdigit, hdot, htag, hskip, s.sub_length hle]
  rw [if_neg Bool.false_ne_true, if_neg Bool.false_ne_true, if_neg Bool.false_ne_true, if_neg Bool.false_ne_true,
    if_pos trivial, if_neg fun h => absurd h.1 (by decide)]
  simp only [bind, Except.bind]
  cases Tag.parse wyhash (s.from' v.numbers.length) <;> rfl

/-! ### Tags -/

/-- Digits, letters, dots and hyphens -/
def isPreCharacter (c : UInt8) : Bool := isTagCharacter c || isDash c

theorem isPlus_of_isPreCharacter (h : isPreCharacter c = true) : isPlus c = false := by
  rw [Bool.eq_false_iff]
  intro hplus
  obtain rfl : c = 43 := by simpa [isPlus] using hplus
  exact absurd h (by decide)

theorem isDash_of_isTagCharacter (h : isTagCharacter c = true) : isDash c = false := by
  rw [Bool.eq_false_iff]
  intro hdash
  obtain rfl : c = 45 := by simpa [isDash] using hdash
  exact absurd h (by decide)

namespace Tag

theorem scan_pre (s : SlicedString) (n : Nat) {text : List UInt8} (htext : text.all isPreCharacter = true)
    (rest : List UInt8) (i start : Nat) (tag : Tag) :
    scan wyhash s n (text ++ rest) i .pre start tag = scan wyhash s n rest (i + text.length) .pre start tag := by
  induction text generalizing i with
  | nil => rfl
  | cons c text ih =>
    obtain ⟨hc, htext⟩ := Bool.and_eq_true_iff.mp (List.all_cons ▸ htext)
    have hrun := ih htext (i + 1)
    rw [Nat.add_assoc, Nat.add_comm 1] at hrun
    rw [List.cons_append, List.length_cons, ← hrun]
    conv => lhs; unfold scan
    simp only [isPlus_of_isPreCharacter hc]
    rw [if_neg Bool.false_ne_true]
    cases hdash : isDash c with
    | true => rfl
    | false =>
      have htag : isTagCharacter c = true := by simpa [isPreCharacter, hdash] using hc
      rw [if_neg Bool.false_ne_true, htag]
      rfl

theorem scan_build (s : SlicedString) (n : Nat) {text : List UInt8} (htext : text.all isTagCharacter = true)
    (rest : List UInt8) (i start : Nat) (tag : Tag) :
    scan wyhash s n (text ++ rest) i .build start tag = scan wyhash s n rest (i + text.length) .build start tag := by
  induction text generalizing i with
  | nil => rfl
  | cons c text ih =>
    obtain ⟨hc, htext⟩ := Bool.and_eq_true_iff.mp (List.all_cons ▸ htext)
    have hrun := ih htext (i + 1)
    rw [Nat.add_assoc, Nat.add_comm 1] at hrun
    have hplus : isPlus c = false := isPlus_of_isPreCharacter (by rw [isPreCharacter, hc]; rfl)
    rw [List.cons_append, List.length_cons, ← hrun]
    conv => lhs; unfold scan
    simp only [hplus, isDash_of_isTagCharacter hc, hc]
    rfl

/-- What is done where a scan ends -/
def finish (s : SlicedString) (tag : Tag) (start stop : Nat) : TagState → Checked TagResult
  | .none => .ok ⟨tag, stop⟩
  | .pre => do .ok ⟨{tag with pre := (← s.sub start stop).external wyhash}, stop⟩
  | .build => do .ok ⟨{tag with build := (← s.sub start stop).external wyhash}, stop⟩

theorem parse_of_scan {s : SlicedString} {tag : Tag} {state : TagState} {start : Nat}
    (hscan : scan wyhash s 0 s.input 0 .none 0 .empty = .ok (tag, state, start, s.input.length))
    (hsize : s.input.length < UInt32.size) (hspace : s.input.all (!isSpace ·) = true)
    (hmark : ∃ c ∈ s.input, isPlus c = true ∨ isDash c = true) :
    parse wyhash s = finish wyhash s tag start s.input.length state := by
  have hhead : s.input.takeWhile (!isSpace ·) = s.input := List.takeWhile_eq_self_iff.mpr (List.all_eq_true.mp hspace)
  have hcount (p : UInt8 → Bool) : s.input.countP p % UInt32.size = s.input.countP p :=
    Nat.mod_eq_of_lt (List.countP_le_length.trans_lt hsize)
  have hmarked : ¬(s.input.countP isPlus % UInt32.size = 0 ∧ (0 + s.input.countP isDash) % UInt32.size = 0) := by
    rw [Nat.zero_add, hcount, hcount, List.countP_eq_zero, List.countP_eq_zero]
    rintro ⟨hplus, hdash⟩
    obtain ⟨c, hc, hp | hd⟩ := hmark
    · exact hplus c hc hp
    · exact hdash c hc hd
  rw [parse, parseWithPreCount]
  simp only [hhead]
  rw [if_neg hmarked, hscan]
  simp only [bind, Except.bind, Nat.lt_irrefl, and_false, if_false, Nat.mod_eq_of_lt hsize]
  cases state <;> rfl

/-- A part of the text, after its mark -/
def marked (mark : UInt8) : Option (List UInt8) → List UInt8
  | none => []
  | some text => mark :: text

/-- A part that starts with its mark at `i`, as it is kept -/
def kept (s : SlicedString) (i : Nat) : Option (List UInt8) → ExternalString
  | none => .empty
  | some text => ⟨.init s.buf ⟨s.slice.addr + (i + 1), text⟩, wyhash text⟩

theorem kept_eq (s : SlicedString) (i : Nat) (text : List UInt8) :
    kept wyhash s i (some text) = (SlicedString.mk s.buf ⟨s.slice.addr + (i + 1), text⟩).external wyhash := rfl

/-- Up to the build, if there is one -/
theorem scan_marked {s : SlicedString} {pre : Option (List UInt8)} {build : List UInt8}
    (hs : s.input = marked 45 pre ++ 43 :: build) (hpre : ∀ text ∈ pre, text.all isPreCharacter = true) :
    scan wyhash s 0 s.input 0 .none 0 .empty =
      scan wyhash s 0 build ((marked 45 pre).length + 1) .build ((marked 45 pre).length + 1)
        ⟨kept wyhash s 0 pre, .empty⟩ := by
  cases pre with
  | none =>
    obtain hs : s.input = 43 :: build := hs
    rw [hs]
    conv => lhs; unfold scan
    rfl
  | some text =>
    obtain hs : s.input = [45] ++ text ++ 43 :: build := hs
    have hsub : s.sub 1 (1 + text.length) = .ok ⟨s.buf, s.slice.addr + 1, text⟩ := s.sub_append _ _ _ hs
    have hpre := scan_pre wyhash s 0 (hpre text rfl) (43 :: build) 1 1 .empty
    have hplus : scan wyhash s 0 (43 :: build) (1 + text.length) .pre 1 .empty =
        scan wyhash s 0 build (1 + text.length + 1) .build (1 + text.length + 1) ⟨kept wyhash s 0 (some text), .empty⟩ := by
      conv => lhs; unfold scan
      simp only [show isPlus 43 = true from rfl, hsub]
      rfl
    rw [hs, List.append_assoc, List.singleton_append]
    have hdash : scan wyhash s 0 (45 :: (text ++ 43 :: build)) 0 .none 0 .empty =
        scan wyhash s 0 (text ++ 43 :: build) 1 .pre 1 .empty := by
      conv => lhs; unfold scan
      rfl
    rw [hdash, hpre, hplus, marked, List.length_cons, Nat.add_comm 1]

theorem all_marked {mark : UInt8} (part : Option (List UInt8)) (hmark : isSpace mark = false)
    (hpart : ∀ text ∈ part, text.all isPreCharacter = true) : (marked mark part).all (!isSpace ·) = true := by
  cases part with
  | none => rfl
  | some text =>
    rw [marked, List.all_cons, hmark, List.all_eq_true.mpr]
    · rfl
    · intro c hc
      have hchar := List.all_eq_true.mp (hpart text rfl) c hc
      rw [Bool.not_eq_true']
      rw [Bool.eq_false_iff]
      intro hspace
      obtain rfl : c = 32 := by simpa [isSpace] using hspace
      exact absurd hchar (by decide)

theorem isPreCharacter_of_tag {text : List UInt8} (h : text.all isTagCharacter = true) : text.all isPreCharacter = true := by
  rw [List.all_eq_true] at h ⊢
  intro c hc
  rw [isPreCharacter, h c hc]
  rfl

section Marked
variable {s : SlicedString} {pre : Option (List UInt8)}

theorem parse_pre {text : List UInt8} (hs : s.input = 45 :: text) (htext : text.all isPreCharacter = true)
    (hsize : s.input.length < UInt32.size) : parse wyhash s = .ok ⟨⟨kept wyhash s 0 (some text), .empty⟩, s.input.length⟩ := by
  have hscan : scan wyhash s 0 s.input 0 .none 0 .empty = .ok (.empty, .pre, 1, s.input.length) := by
    have hpre := scan_pre wyhash s 0 htext [] 1 1 .empty
    rw [List.append_nil] at hpre
    rw [hs, List.length_cons, Nat.add_comm text.length]
    refine Eq.trans ?_ hpre
    conv => lhs; unfold scan
    rfl
  have hsub : s.sub 1 s.input.length = .ok ⟨s.buf, s.slice.addr + 1, text⟩ := by
    have hlength : s.input.length = 1 + text.length := by rw [hs, List.length_cons, Nat.add_comm]
    rw [hlength]
    exact s.sub_append [45] _ [] (by rw [hs, List.append_nil]; rfl)
  rw [parse_of_scan wyhash hscan hsize (hs ▸ all_marked (some text) rfl (by rintro _ ⟨⟩; exact htext))
    ⟨45, hs ▸ List.mem_cons_self, .inr rfl⟩, finish, hsub]
  rfl

/-- A tag with a build is taken up to its end, if it is scanned so. -/
theorem parse_of_build {tail : List UInt8} {tag : Tag} {state : TagState} {start : Nat}
    (hs : s.input = marked 45 pre ++ 43 :: tail) (hpre : ∀ text ∈ pre, text.all isPreCharacter = true)
    (htail : tail.all isPreCharacter = true) (hsize : s.input.length < UInt32.size)
    (hscan : scan wyhash s 0 tail ((marked 45 pre).length + 1) .build ((marked 45 pre).length + 1)
      ⟨kept wyhash s 0 pre, .empty⟩ = .ok (tag, state, start, s.input.length)) :
    parse wyhash s = finish wyhash s tag start s.input.length state := by
  have hspace : s.input.all (!isSpace ·) = true := by
    rw [hs, List.all_append, all_marked pre rfl hpre, Bool.true_and]
    exact all_marked (some tail) rfl (by rintro _ ⟨⟩; exact htail)
  exact parse_of_scan wyhash ((scan_marked wyhash hs hpre).trans hscan) hsize hspace
    ⟨43, hs ▸ List.mem_append_right _ List.mem_cons_self, .inl rfl⟩

theorem parse_build {text : List UInt8} (hs : s.input = marked 45 pre ++ 43 :: text)
    (hpre : ∀ text ∈ pre, text.all isPreCharacter = true) (htext : text.all isTagCharacter = true)
    (hsize : s.input.length < UInt32.size) :
    parse wyhash s = .ok ⟨⟨kept wyhash s 0 pre, kept wyhash s (marked 45 pre).length (some text)⟩, s.input.length⟩ := by
  have hlength : s.input.length = (marked 45 pre).length + 1 + text.length := by
    rw [hs, List.length_append, List.length_cons, Nat.add_comm text.length, Nat.add_assoc]
  have hbuild := scan_build wyhash s 0 htext [] ((marked 45 pre).length + 1) ((marked 45 pre).length + 1)
    ⟨kept wyhash s 0 pre, .empty⟩
  rw [List.append_nil, ← hlength] at hbuild
  have hsub : s.sub ((marked 45 pre).length + 1) s.input.length =
      .ok ⟨s.buf, s.slice.addr + ((marked 45 pre).length + 1), text⟩ := by
    have happend := s.sub_append (marked 45 pre ++ [43]) text []
      (by rw [hs, List.append_nil, List.append_assoc]; rfl)
    rw [List.length_append] at happend
    rw [hlength]
    exact happend
  rw [parse_of_build wyhash hs hpre (isPreCharacter_of_tag htext) hsize hbuild, finish, hsub]
  rfl

/-- A hyphen in the build ends the build, which is nowhere kept. -/
theorem parse_dash {text rest : List UInt8} (hs : s.input = marked 45 pre ++ 43 :: (text ++ 45 :: rest))
    (hpre : ∀ text ∈ pre, text.all isPreCharacter = true) (htext : text.all isTagCharacter = true)
    (hrest : rest.all isPreCharacter = true) (hsize : s.input.length < UInt32.size) :
    ∃ kept, parse wyhash s = .ok ⟨⟨kept, .empty⟩, s.input.length⟩ := by
  have hbuild := scan_build wyhash s 0 htext (45 :: rest) ((marked 45 pre).length + 1) ((marked 45 pre).length + 1)
    ⟨kept wyhash s 0 pre, .empty⟩
  have hdash : scan wyhash s 0 (45 :: rest) ((marked 45 pre).length + 1 + text.length) .build ((marked 45 pre).length + 1)
      ⟨kept wyhash s 0 pre, .empty⟩ =
        scan wyhash s 0 rest ((marked 45 pre).length + 1 + text.length + 1) .pre
          ((marked 45 pre).length + 1 + text.length + 1) ⟨kept wyhash s 0 pre, .empty⟩ := by
    conv => lhs; unfold scan
    rfl
  have hpre' := scan_pre wyhash s 0 hrest [] ((marked 45 pre).length + 1 + text.length + 1)
    ((marked 45 pre).length + 1 + text.length + 1) ⟨kept wyhash s 0 pre, .empty⟩
  rw [List.append_nil] at hpre'
  have hlength : s.input.length = (marked 45 pre).length + 1 + text.length + 1 + rest.length := by
    rw [hs]
    simp only [List.length_append, List.length_cons]
    omega
  rw [← hlength] at hpre'
  rw [hdash, hpre'] at hbuild
  have hsub : s.sub ((marked 45 pre).length + 1 + text.length + 1) s.input.length =
      .ok ⟨s.buf, s.slice.addr + ((marked 45 pre).length + 1 + text.length + 1), rest⟩ := by
    have happend := s.sub_append (marked 45 pre ++ 43 :: (text ++ [45])) rest []
      (by rw [hs]; simp)
    have hbefore : (marked 45 pre ++ 43 :: (text ++ [45])).length = (marked 45 pre).length + 1 + text.length + 1 := by
      simp only [List.length_append, List.length_cons, List.length_nil]
      omega
    rw [hbefore] at happend
    rw [hlength]
    exact happend
  have hchars : (text ++ 45 :: rest).all isPreCharacter = true := by
    rw [List.all_append, isPreCharacter_of_tag htext, List.all_cons, hrest]
    rfl
  rw [parse_of_build wyhash hs hpre hchars hsize hbuild, finish, hsub]
  exact ⟨_, rfl⟩

theorem parse_marked {build : Option (List UInt8)} (hs : s.input = marked 45 pre ++ marked 43 build)
    (hpre : ∀ text ∈ pre, text.all isPreCharacter = true) (hbuild : ∀ text ∈ build, text.all isTagCharacter = true)
    (hsome : ¬(pre = none ∧ build = none)) (hsize : s.input.length < UInt32.size) :
    parse wyhash s = .ok ⟨⟨kept wyhash s 0 pre, kept wyhash s (marked 45 pre).length build⟩, s.input.length⟩ := by
  cases build with
  | some text => exact parse_build wyhash hs hpre (hbuild text rfl) hsize
  | none =>
    cases pre with
    | none => exact absurd ⟨rfl, rfl⟩ hsome
    | some text => exact parse_pre wyhash (hs.trans (List.append_nil _)) (hpre text rfl) hsize

theorem marked_cons (pre build : Option (List UInt8)) (hsome : ¬(pre = none ∧ build = none)) :
    ∃ c tail, marked 45 pre ++ marked 43 build = c :: tail ∧ (c = 45 ∨ c = 43) := by
  cases pre with
  | some text => exact ⟨45, _, rfl, .inl rfl⟩
  | none =>
    cases build with
    | some text => exact ⟨43, _, rfl, .inr rfl⟩
    | none => exact absurd ⟨rfl, rfl⟩ hsome

end Marked

end Tag

/-! ### Versions -/

theorem mem_intercalate {c mark : UInt8} {parts : List (List UInt8)} (hc : c ∈ [mark].intercalate parts) :
    c = mark ∨ ∃ part ∈ parts, c ∈ part := by
  induction parts with
  | nil => simp at hc
  | cons part parts ih =>
    cases parts with
    | nil =>
      rw [List.intercalate_singleton] at hc
      exact .inr ⟨part, List.mem_cons_self, hc⟩
    | cons next rest =>
      rw [List.intercalate_cons_cons] at hc
      simp only [List.mem_append, List.mem_singleton] at hc
      rcases hc with (hpart | hmark) | hrest
      · exact .inr ⟨part, List.mem_cons_self, hpart⟩
      · exact .inl hmark
      · rcases ih hrest with hmark | ⟨part', hmem, hin⟩
        · exact .inl hmark
        · exact .inr ⟨part', List.mem_cons_of_mem part hmem, hin⟩

/-- Identifiers and the dots between them -/
theorem all_isPreCharacter {text : List UInt8}
    (h : ∀ part ∈ text.splitOn 46, (part.all fun c => isDigit c || isAlphabetic c || isDash c) = true) :
    text.all isPreCharacter = true := by
  rw [List.all_eq_true]
  intro c hc
  have hjoin : [46].intercalate (text.splitOn 46) = text := List.intercalate_splitOn 46
  rw [← hjoin] at hc
  rcases mem_intercalate hc with rfl | ⟨part, hpart, hin⟩
  · rfl
  · have hchar := List.all_eq_true.mp (h part hpart) c hin
    rw [isPreCharacter, isTagCharacter]
    revert hchar
    cases isDigit c <;> cases isAlphabetic c <;> cases isDash c <;> simp

namespace Stored

def pre? (x : Stored) : Option (List UInt8) := if x.1.tag.hasPre then some (x.1.tag.pre.value.slice x.2) else none

def build? (x : Stored) : Option (List UInt8) := if x.1.tag.hasBuild then some (x.1.tag.build.value.slice x.2) else none

/-- Every identifier of the build is not empty, and of digits, letters and hyphens. -/
def ValidBuild (x : Stored) : Prop :=
  ∀ build ∈ x.build?, ∀ part ∈ build.splitOn 46,
    part ≠ [] ∧ (part.all fun c => isDigit c || isAlphabetic c || isDash c) = true

/-- A version with a short tag, which needs no buffer -/
def ofShort (major minor patch : UInt64) (pre build : List UInt8) : Stored :=
  (⟨major, minor, patch, ⟨⟨.init 0 ⟨0, pre⟩, 0⟩, ⟨.init 0 ⟨0, build⟩, 0⟩⟩⟩, [])

def text (x : Stored) : List UInt8 := x.1.fmt x.2

theorem text_eq (x : Stored) : x.text = x.1.numbers ++ (Tag.marked 45 x.pre? ++ Tag.marked 43 x.build?) := by
  rw [text, Version.fmt, Version.numbers, pre?, build?]
  cases x.1.tag.hasPre <;> cases x.1.tag.hasBuild <;> simp [Tag.marked]

theorem pre?_chars {x : Stored} (h : x.Valid) : ∀ text ∈ x.pre?, text.all isPreCharacter = true := by
  intro text htext
  unfold pre? at htext
  split at htext
  · rename_i hpre
    cases htext
    refine all_isPreCharacter fun part hpart => ?_
    refine (h part ?_).2.1
    rw [parts, if_pos hpre]
    exact hpart
  · cases htext

theorem build?_chars {x : Stored} (h : x.ValidBuild) : ∀ text ∈ x.build?, text.all isPreCharacter = true :=
  fun text htext => all_isPreCharacter fun part hpart => (h text htext part hpart).2

end Stored

namespace Tag

/-- A part that can be kept: it has neither a NUL nor too many bytes, and it is not empty. -/
def Keepable (part : List UInt8) : Prop := part ≠ [] ∧ 0 ∉ part ∧ part.length < 2 ^ 31

/-- What is kept is there, and it is the part. -/
theorem kept_present {s : SlicedString} {off i : Nat} {part : Option (List UInt8)} {text : List UInt8}
    (haddr : s.slice.addr = s.buf + off) (hpart : ∀ bytes ∈ part, Keepable bytes)
    (hplace : ∀ bytes ∈ part, (text.drop (off + (i + 1))).take bytes.length = bytes)
    (hsize : text.length < UInt32.size) :
    (if (!(kept wyhash s i part).isEmpty) = true then some ((kept wyhash s i part).value.slice text) else none) = part := by
  cases part with
  | none => rfl
  | some bytes =>
    obtain ⟨hne, hnul, hlength⟩ := hpart bytes rfl
    have hslice : (kept wyhash s i (some bytes)).value.slice text = bytes := by
      have hoff : off + (i + 1) < text.length := by
        have htake := congrArg List.length (hplace bytes rfl)
        have hpos := List.length_pos_of_ne_nil hne
        rw [List.length_take, List.length_drop] at htake
        omega
      rw [kept_eq, SlicedString.external, haddr, Nat.add_assoc]
      exact SemverString.slice_init hnul (hplace bytes rfl) (hoff.trans hsize) hlength
    have hempty : (kept wyhash s i (some bytes)).isEmpty = false := by
      rw [Bool.eq_false_iff]
      intro hempty
      exact hne (hslice ▸ SemverString.slice_of_isEmpty hempty text)
    rw [hempty, hslice]
    rfl

end Tag

/-- The text of a version is read as the version, to its end. -/
def RoundTrips (x : Stored) : Prop :=
  ∀ addr, ∃ r, Version.parse wyhash ⟨addr, ⟨addr, x.text⟩⟩ = .ok r ∧ r.valid = true ∧ r.wildcard = .none ∧
    r.len = x.text.length ∧ r.version.major = some x.1.major ∧ r.version.minor = some x.1.minor ∧
    r.version.patch = some x.1.patch ∧
    Stored.pre? (r.version.min, x.text) = x.pre? ∧ Stored.build? (r.version.min, x.text) = x.build?

namespace Stored

theorem keepable {bytes : List UInt8} (hchars : bytes.all isPreCharacter = true)
    (hne : ∀ part ∈ bytes.splitOn 46, part ≠ []) (hlength : bytes.length < 2 ^ 31) : Tag.Keepable bytes := by
  refine ⟨?_, fun hnul => ?_, hlength⟩
  · rintro rfl
    exact hne [] List.mem_cons_self rfl
  · exact absurd (List.all_eq_true.mp hchars 0 hnul) (by decide)

theorem keepable_pre {x : Stored} (h : x.Valid) : ∀ bytes ∈ x.pre?, Tag.Keepable bytes := by
  intro bytes hbytes
  have hchars := pre?_chars h bytes hbytes
  unfold pre? at hbytes
  split at hbytes
  · rename_i hpre
    cases hbytes
    refine keepable hchars (fun part hpart => (h part ?_).1) (SemverString.length_slice _ _)
    rw [parts, if_pos hpre]
    exact hpart
  · cases hbytes

theorem keepable_build {x : Stored} (h : x.ValidBuild) : ∀ bytes ∈ x.build?, Tag.Keepable bytes := by
  intro bytes hbytes
  have hchars := build?_chars h bytes hbytes
  have hparts := h bytes hbytes
  unfold build? at hbytes
  split at hbytes
  · cases hbytes
    exact keepable hchars (fun part hpart => (hparts part hpart).1) (SemverString.length_slice _ _)
  · cases hbytes

end Stored

/-- A build with no hyphen -/
theorem all_isTagCharacter {bytes : List UInt8} (hchars : bytes.all isPreCharacter = true) (hdash : 45 ∉ bytes) :
    bytes.all isTagCharacter = true := by
  rw [List.all_eq_true] at hchars ⊢
  intro c hc
  have hchar := hchars c hc
  have hne : isDash c = false := by
    rw [Bool.eq_false_iff]
    intro heq
    obtain rfl : c = 45 := by simpa [isDash] using heq
    exact hdash hc
  simpa [isPreCharacter, hne] using hchar

/-- What is read from the text of a version, wherever it is -/
theorem Version.parse_text {x : Stored} (hs : s.input = x.text) (hpre : x.Valid) (hbuild : x.ValidBuild)
    (hdash : ∀ build ∈ x.build?, 45 ∉ build) (hsize : x.text.length < UInt32.size) :
    parse wyhash s = .ok {x.1.core with
      version.tag := ⟨Tag.kept wyhash (s.from' x.1.numbers.length) 0 x.pre?,
        Tag.kept wyhash (s.from' x.1.numbers.length) (Tag.marked 45 x.pre?).length x.build?⟩
      len := x.text.length} := by
  have htext := x.text_eq
  have htail : (s.from' x.1.numbers.length).input = Tag.marked 45 x.pre? ++ Tag.marked 43 x.build? := by
    show s.input.drop x.1.numbers.length = _
    rw [hs, htext, List.drop_left]
  have hlength : x.1.numbers.length + (s.from' x.1.numbers.length).input.length = x.text.length := by
    rw [htail, htext]
    exact List.length_append.symm
  by_cases hnone : x.pre? = none ∧ x.build? = none
  · rw [hnone.1, hnone.2] at htext ⊢
    have hnumbers : x.text = x.1.numbers := htext.trans (List.append_nil _)
    rw [parse_numbers wyhash (hs.trans hnumbers) (hnumbers ▸ hsize), hnumbers]
    rfl
  · obtain ⟨c, tail, hcons, hc⟩ := Tag.marked_cons _ _ hnone
    have hparse := Tag.parse_marked wyhash htail (Stored.pre?_chars hpre)
      (fun build hmem => all_isTagCharacter (Stored.build?_chars hbuild build hmem) (hdash build hmem)) hnone (by omega)
    rw [parse_tag wyhash (hs.trans (hcons ▸ htext)) hc, hparse]
    show (if x.1.numbers.length + (s.from' x.1.numbers.length).input.length < UInt32.size then _ else _) = _
    rw [hlength, if_pos hsize]

/-- The text of a version whose build has a hyphen: no build is read. -/
theorem Version.parse_text_dash {x : Stored} (hs : s.input = x.text) (hpre : x.Valid)
    (hbuild : x.ValidBuild) {build : List UInt8} (hmem : build ∈ x.build?) (hdash : 45 ∈ build)
    (hsize : x.text.length < UInt32.size) : ∃ r, parse wyhash s = .ok r ∧ r.version.tag.build = .empty := by
  have htext := x.text_eq
  have hbuild' : x.build? = some build := hmem
  obtain ⟨before, after, rfl, hbefore⟩ := List.eq_append_cons_of_mem hdash
  have hchars := Stored.build?_chars hbuild _ hmem
  rw [List.all_append, List.all_cons, Bool.and_eq_true, Bool.and_eq_true] at hchars
  have htail : (s.from' x.1.numbers.length).input = Tag.marked 45 x.pre? ++ 43 :: (before ++ 45 :: after) := by
    show s.input.drop x.1.numbers.length = _
    rw [hs, htext, List.drop_left, hbuild']
    rfl
  have hlength : x.1.numbers.length + (s.from' x.1.numbers.length).input.length = x.text.length := by
    rw [htail, htext, hbuild']
    exact List.length_append.symm
  obtain ⟨kept, hparse⟩ := Tag.parse_dash wyhash htail (Stored.pre?_chars hpre) (all_isTagCharacter hchars.1 hbefore)
    hchars.2.2 (by omega)
  obtain ⟨c, tail, hcons, hc⟩ := Tag.marked_cons x.pre? x.build? (by rw [hbuild']; exact nofun)
  rw [parse_tag wyhash (hs.trans (hcons ▸ htext)) hc, hparse]
  show ∃ r, (if x.1.numbers.length + (s.from' x.1.numbers.length).input.length < UInt32.size then _ else _) = _ ∧ _
  rw [hlength, if_pos hsize]
  exact ⟨_, rfl, rfl⟩

theorem Version.len_lt {r : ParseResult} (h : parse wyhash s = .ok r) : r.len < UInt32.size := by
  unfold parse at h
  split at h
  · cases h
    decide
  · cases hloop : parseLoop wyhash s (s.input.length + 1) (skipLead s.input) 0 .empty with
    | error fault => rw [hloop] at h; cases h
    | ok result =>
      rw [hloop] at h
      simp only [bind, Except.bind] at h
      split at h
      · rename_i hlt
        cases h
        exact hlt
      · cases h

theorem Stored.pre?_place (x : Stored) : ∀ bytes ∈ x.pre?,
    (x.text.drop (x.1.numbers.length + (0 + 1))).take bytes.length = bytes := by
  intro bytes hbytes
  have hpre : x.pre? = some bytes := hbytes
  rw [x.text_eq, hpre, List.drop_append, List.drop_eq_nil_of_le (Nat.le_add_right _ _), List.nil_append,
    Nat.add_sub_cancel_left]
  exact List.take_left' rfl

theorem Stored.build?_place (x : Stored) : ∀ bytes ∈ x.build?,
    (x.text.drop (x.1.numbers.length + ((Tag.marked 45 x.pre?).length + 1))).take bytes.length = bytes := by
  intro bytes hbytes
  have hbuild : x.build? = some bytes := hbytes
  rw [x.text_eq, hbuild, List.drop_append, List.drop_eq_nil_of_le (Nat.le_add_right _ _), List.nil_append,
    Nat.add_sub_cancel_left, List.drop_append, List.drop_eq_nil_of_le (Nat.le_add_right _ _), List.nil_append,
    Nat.add_sub_cancel_left]
  exact List.take_of_length_le (Nat.le_refl _)

/-- **The text of a version is read back, exactly if** it is shorter than 4 GiB and there is no hyphen in the build. -/
theorem roundTrips_iff (x : Stored) (hpre : x.Valid) (hbuild : x.ValidBuild) :
    RoundTrips wyhash x ↔ x.text.length < UInt32.size ∧ ∀ build ∈ x.build?, 45 ∉ build := by
  constructor
  · intro h
    obtain ⟨r, hr, -, -, hlen, -, -, -, -, hkept⟩ := h 0
    have hsize : x.text.length < UInt32.size := hlen ▸ Version.len_lt wyhash hr
    refine ⟨hsize, fun build hmem hdash => ?_⟩
    obtain ⟨r', hr', hempty⟩ := Version.parse_text_dash wyhash (s := ⟨0, ⟨0, x.text⟩⟩) rfl hpre hbuild hmem hdash hsize
    obtain rfl : r = r' := Except.ok.inj (hr.symm.trans hr')
    have hnone : Stored.build? (r.version.min, x.text) = none := by
      show (if (!r.version.tag.build.isEmpty) = true then _ else none) = none
      rw [hempty]
      rfl
    exact absurd (hnone.symm.trans (hkept.trans hmem)) (by exact nofun)
  · rintro ⟨hsize, hdash⟩ addr
    refine ⟨_, Version.parse_text wyhash (s := ⟨addr, ⟨addr, x.text⟩⟩) rfl hpre hbuild hdash hsize, rfl, rfl, rfl, rfl, rfl,
      rfl, ?_, ?_⟩
    · exact Tag.kept_present wyhash rfl (Stored.keepable_pre hpre) x.pre?_place hsize
    · exact Tag.kept_present wyhash rfl (Stored.keepable_build hbuild) x.build?_place hsize

/-- `1.2.3-rc.1+5` -/
theorem roundTrips_iff_numbers : RoundTrips (fun _ => 0) (.ofShort 1 2 3 [114, 99, 46, 49] [53]) := by
  refine (roundTrips_iff (fun _ => 0) (.ofShort 1 2 3 [114, 99, 46, 49] [53]) (by decide +kernel) ?_).mpr
    ⟨by decide +kernel, ?_⟩
  · unfold Stored.ValidBuild
    decide +kernel
  · decide +kernel

/-- `1.0.0+a-b` is read as a version with the pre-release `b`. -/
theorem not_roundTrips_dash :
    let x := Stored.ofShort 1 0 0 [] [97, 45, 98]
    x.text = [49, 46, 48, 46, 48, 43, 97, 45, 98] ∧ x.Valid ∧ x.ValidBuild ∧
      Version.parse (fun _ => 0) ⟨0, ⟨0, x.text⟩⟩ =
        .ok ⟨.none, true, ⟨some 1, some 0, some 0, (Stored.ofShort 1 0 0 [98] []).1.tag⟩, 9⟩ ∧
      ¬RoundTrips (fun _ => 0) x := by
  have hparse : Version.parse (fun _ => 0) ⟨0, ⟨0, (Stored.ofShort 1 0 0 [] [97, 45, 98]).text⟩⟩ =
      .ok ⟨.none, true, ⟨some 1, some 0, some 0, (Stored.ofShort 1 0 0 [98] []).1.tag⟩, 9⟩ := by
    decide +kernel
  refine ⟨by decide +kernel, by decide +kernel, ?_, hparse, fun h => ?_⟩
  · unfold Stored.ValidBuild
    decide +kernel
  · obtain ⟨r, hr, -, -, -, -, -, -, -, hkept⟩ := h 0
    obtain rfl := Except.ok.inj (hparse.symm.trans hr)
    revert hkept
    decide +kernel

end Parse

end Funbun.Semver
