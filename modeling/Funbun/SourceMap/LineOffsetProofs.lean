import Funbun.SourceMap.Lines
import Funbun.SourceMap.LookupProofs
import Funbun.SourceMap.LineOffsetRows

/-! How a line is found in a table, and how the text of a source is read.

The loop takes the characters of a text one by one. A run of ASCII that it skips is read as it would be character by
character. -/
namespace Funbun.SourceMap
open Library Strings

namespace LineOffsetTable

/-! ### Finding a line -/

/-- Line `n` is the one that a place is on. -/
structure OnLine (offsets : List Nat) (loc n : Nat) : Prop where
  increasing : offsets.Pairwise (· < ·)
  own : ∃ start, offsets[n]? = some start ∧ start ≤ loc
  upTo : ∀ start, offsets[n + 1]? = some start → loc < start
  fits : loc < 2147483648

variable {offsets : List Nat} {loc : Nat}

/-- The search cuts the lines in those that start up to a place and those behind it. -/
theorem cutAt_lines (h : offsets.Pairwise (· < ·)) (loc : Nat) :
    CutAt (fun i => (offsets[i]?).any (· ≤ loc)) offsets.length
      (halve (fun i => (offsets[i]?).any (· ≤ loc)) 0 offsets.length) := by
  have hplaces : ∀ i j, i ≤ j → j < offsets.length → (offsets[j]?).any (· ≤ loc) = true →
      (offsets[i]?).any (· ≤ loc) = true := by
    intro i j hij hj hloc
    rcases Nat.lt_or_eq_of_le hij with hlt | rfl
    · have hgetj : offsets[j]? = some offsets[j] := List.getElem?_eq_getElem hj
      have hgeti : offsets[i]? = some offsets[i] := List.getElem?_eq_getElem (by omega)
      have hless := List.pairwise_iff_getElem.1 h i j (by omega) hj hlt
      rw [hgetj] at hloc
      rw [hgeti]
      simp only [Option.any_some, decide_eq_true_eq] at hloc ⊢
      omega
    · exact hloc
  rw [halve_eq, Nat.zero_add]
  exact cutAt_binarySearch hplaces 0 _ (Nat.zero_le _) le_rfl (fun _ hi => absurd hi (Nat.not_lt_zero _))
    fun _ hle hlt => absurd hlt (Nat.not_lt.2 hle)

namespace OnLine
variable {offsets : List Nat} {loc n : Nat} (h : OnLine offsets loc n)
include h

theorem le_of_getElem? {i j a b : Nat} (hij : i ≤ j) (hi : offsets[i]? = some a) (hj : offsets[j]? = some b) : a ≤ b := by
  obtain ⟨hi', rfl⟩ := List.getElem?_eq_some_iff.1 hi
  obtain ⟨hj', rfl⟩ := List.getElem?_eq_some_iff.1 hj
  rcases Nat.lt_or_eq_of_le hij with hlt | rfl
  · exact le_of_lt (List.pairwise_iff_getElem.1 h.increasing i j hi' hj' hlt)
  · exact le_rfl

theorem lt_length : n < offsets.length := by
  obtain ⟨start, hstart, -⟩ := h.own
  exact (List.getElem?_eq_some_iff.1 hstart).1

/-- The lines that start up to the place are those up to its own. -/
theorem starts_iff {i start : Nat} (hi : offsets[i]? = some start) : start ≤ loc ↔ i ≤ n := by
  constructor
  · intro hle
    by_contra hlt
    have hlength := (List.getElem?_eq_some_iff.1 hi).1
    obtain ⟨next, hnext⟩ : ∃ next, offsets[n + 1]? = some next :=
      ⟨_, List.getElem?_eq_getElem (by omega)⟩
    have := h.upTo next hnext
    have := h.le_of_getElem? (by omega) hnext hi
    omega
  · intro hle
    obtain ⟨ownStart, hown, hloc⟩ := h.own
    exact le_trans (h.le_of_getElem? hle hi hown) hloc

/-- Before line `i` start at least `i` bytes. -/
theorem le_start {i start : Nat} (hi : offsets[i]? = some start) : i ≤ start := by
  induction i generalizing start with
  | zero => exact Nat.zero_le _
  | succ i ih =>
    have hlt := (List.getElem?_eq_some_iff.1 hi).1
    have hprev : offsets[i]? = some offsets[i] := List.getElem?_eq_getElem (by omega)
    obtain ⟨-, rfl⟩ := List.getElem?_eq_some_iff.1 hi
    have := List.pairwise_iff_getElem.1 h.increasing i (i + 1) (by omega) hlt (Nat.lt_succ_self i)
    have := ih hprev
    omega

theorem findLine_eq : findLine offsets loc = n := by
  have hcut := cutAt_lines h.increasing loc
  unfold findLine
  generalize halve (fun i => (offsets[i]?).any (· ≤ loc)) 0 offsets.length = k at hcut
  have hlt := h.lt_length
  have hk : k = n + 1 := by
    rcases Nat.lt_trichotomy k (n + 1) with hlow | heq | hhigh
    · have hnot := hcut.behind n (by omega) hlt
      obtain ⟨start, hstart, hle⟩ := h.own
      rw [hstart] at hnot
      simp at hnot
      omega
    · exact heq
    · have hle := hcut.le
      have hyes := hcut.before (n + 1) hhigh
      have hnext : offsets[n + 1]? = some offsets[n + 1] := List.getElem?_eq_getElem (by omega)
      rw [hnext] at hyes
      have := h.upTo _ hnext
      simp at hyes
      omega
  rw [hk]
  omega

/-- A line that starts up to the place, and the one behind it does not -/
theorem eq_of_endsBehind {i : Nat} (hle : i ≤ n) (hends : endsBehind offsets loc (i + 1) = true) : i = n := by
  have hlt := h.lt_length
  by_contra hne
  have hnext : offsets[i + 1]? = some offsets[i + 1] := List.getElem?_eq_getElem (by omega)
  have hstarts := (h.starts_iff hnext).2 (by omega)
  simp only [endsBehind, hnext, Option.any_some, Bool.or_eq_true, beq_iff_eq, decide_eq_true_eq] at hends
  omega

theorem lt_of_not_endsBehind {i : Nat} (hle : i ≤ n) (hends : ¬endsBehind offsets loc (i + 1) = true) : i + 1 ≤ n := by
  have hlt := h.lt_length
  by_contra hgt
  have hin : i = n := by omega
  subst hin
  apply hends
  rw [endsBehind, Bool.or_eq_true, beq_iff_eq]
  by_cases hlast : i + 1 = offsets.length
  · exact .inl hlast
  · have hnext : offsets[i + 1]? = some offsets[i + 1] := List.getElem?_eq_getElem (by omega)
    right
    rw [hnext]
    exact decide_eq_true (h.upTo _ hnext)

theorem findLineWithHint_eq (hint : Nat) : findLineWithHint offsets loc hint = n := by
  have hn : n < 2147483648 := by
    obtain ⟨start, hstart, hle⟩ := h.own
    have := h.le_start hstart
    have := h.fits
    omega
  have hcast (k : Nat) (hk : k ≤ n) : i32 k = k := i32_of_range (by unfold Int32Range; omega)
  unfold findLineWithHint
  by_cases hstart : (offsets[hint]?).any (· ≤ loc) = true
  · rw [if_pos hstart]
    obtain ⟨start, hget, hle⟩ := (Option.any_eq_true _ _).1 hstart
    have hhint : hint ≤ n := (h.starts_iff hget).1 (by simpa using hle)
    rw [hcast hint hhint]
    by_cases h1 : endsBehind offsets loc (hint + 1) = true
    · rw [if_pos h1, h.eq_of_endsBehind hhint h1]
    · have hhint1 := h.lt_of_not_endsBehind hhint h1
      rw [if_neg h1]
      by_cases h2 : endsBehind offsets loc (hint + 2) = true
      · rw [if_pos h2]
        exact (hcast (hint + 1) hhint1).trans (congrArg _ (h.eq_of_endsBehind hhint1 h2))
      · have hhint2 := h.lt_of_not_endsBehind hhint1 h2
        rw [if_neg h2]
        by_cases h3 : endsBehind offsets loc (hint + 3) = true
        · rw [if_pos h3]
          exact (hcast (hint + 2) hhint2).trans (congrArg _ (h.eq_of_endsBehind hhint2 h3))
        · rw [if_neg h3, h.findLine_eq]
  · rw [if_neg hstart, h.findLine_eq]

end OnLine

/-- A place is on a line, or before all of them. -/
theorem onLine_or (h : offsets.Pairwise (· < ·)) (hloc : loc < 2147483648) :
    (∃ n, OnLine offsets loc n) ∨ findLine offsets loc = -1 ∧ ∀ i : Nat, ¬(offsets[i]?).any (· ≤ loc) = true := by
  have hcut := cutAt_lines h loc
  cases hk : halve (fun i => (offsets[i]?).any (· ≤ loc)) 0 offsets.length with
  | zero =>
    refine .inr ⟨by rw [findLine, hk]; rfl, fun i hi => ?_⟩
    rw [hk] at hcut
    have hlt : i < offsets.length := by
      by_contra hge
      rw [List.getElem?_eq_none (Nat.not_lt.1 hge)] at hi
      cases hi
    have hnot := hcut.behind i (Nat.zero_le _) hlt
    exact absurd hi (by simp [hnot])
  | succ n =>
    rw [hk] at hcut
    refine .inl ⟨n, h, ?_, fun start hnext => ?_, hloc⟩
    · obtain ⟨start, hstart, hle⟩ := (Option.any_eq_true _ _).1 (hcut.before n (Nat.lt_succ_self n))
      exact ⟨start, hstart, by simpa using hle⟩
    · have hnot := hcut.behind (n + 1) le_rfl (List.getElem?_eq_some_iff.1 hnext).1
      rw [hnext] at hnot
      simpa using hnot

/-- The hint does not matter. -/
theorem findLineWithHint_eq_findLine (h : offsets.Pairwise (· < ·)) (hloc : loc < 2147483648)
    (hint : Nat) : findLineWithHint offsets loc hint = findLine offsets loc := by
  rcases onLine_or h hloc with ⟨n, honLine⟩ | ⟨-, hnone⟩
  · rw [honLine.findLineWithHint_eq, honLine.findLine_eq]
  · unfold findLineWithHint
    rw [if_neg (hnone hint)]

theorem findLine_lt (h : offsets.Pairwise (· < ·)) (hloc : loc < 2147483648) :
    findLine offsets loc < 2147483648 := by
  rcases onLine_or h hloc with ⟨n, honLine⟩ | ⟨hfirst, -⟩
  · obtain ⟨start, hstart, hle⟩ := honLine.own
    have := honLine.le_start hstart
    rw [honLine.findLine_eq]
    omega
  · rw [hfirst]
    decide

/-! ### Reading a text -/

namespace Generator

/-- The character at an offset, `next` being the one behind it -/
def readChar (s : Generator) (offset : Nat) (c : Char) (next : Option Char) : Generator :=
  let s := (s.prepare c.toNat offset).fillColumns offset
  if endsLine c next then s.newline else s.advance (units [c])

/-- A text from an offset on -/
def readText (s : Generator) (offset : Nat) : List Char → Option Char → Generator
  | [], _ => s
  | c :: text, next => readText (s.readChar offset c (text.head?.or next)) (offset + size [c]) text next

theorem readText_append (s : Generator) (offset : Nat) (a b : List Char) (next : Option Char) :
    readText s offset (a ++ b) next = readText (readText s offset a (b.head?.or next)) (offset + size a) b next := by
  induction a generalizing s offset with
  | nil => rfl
  | cons c a ih =>
    have hnext : (a ++ b).head?.or next = a.head?.or (b.head?.or next) := by cases a <;> rfl
    rw [List.cons_append, readText, ih, hnext, readText, size_cons c a, Nat.add_assoc]

theorem decodeFront_char (c : Char) (rest : List UInt8) {b0 : UInt8} {bytes : List UInt8}
    (h : String.utf8EncodeChar c = b0 :: bytes) (hlength : wtf8ByteSequenceLength b0 = bytes.length + 1) :
    decodeFront (String.utf8EncodeChar c ++ rest) b0 = c.toNat := by
  have hdecode := decodeWtf8Rune_encodeChar c [] 0
  have htake : (String.utf8EncodeChar c ++ rest).take (wtf8ByteSequenceLength b0) = String.utf8EncodeChar c := by
    rw [hlength, h]
    exact List.take_left' rfl
  have hlen : (String.utf8EncodeChar c).length = wtf8ByteSequenceLength b0 := by
    rw [h, hlength]
    rfl
  rw [List.append_nil, hlen] at hdecode
  unfold decodeFront
  simp only [htake]
  split
  · rename_i hone
    rw [hone] at hdecode
    rw [← hdecode, decodeWtf8Rune, if_neg (by decide), if_pos rfl, h]
    rfl
  · exact hdecode

theorem toNat_eq_iff (c : Char) (n : Nat) (hn : n < 55296) : c.toNat = n ↔ c = Char.ofNat n := by
  have hback : (Char.ofNat n).toNat = n := by
    have hvalid : n.isValidChar := .inl hn
    rw [Char.ofNat, dif_pos hvalid]
    rfl
  constructor
  · intro h
    rw [← h, Char.ofNat_toNat]
  · intro h
    rw [h, hback]

theorem endsLine_eq (c : Char) (next : Option Char) :
    endsLine c next = (isLineBreak c.toNat && !(c.toNat == 0x0D && next == some '\n')) := by
  have hcr : (c.toNat == 0x0D) = (c == '\r') := by
    rw [Bool.eq_iff_iff, beq_iff_eq, beq_iff_eq]
    exact toNat_eq_iff c 13 (by decide)
  have hlf : (c.toNat == 0x0A) = (c == '\n') := by
    rw [Bool.eq_iff_iff, beq_iff_eq, beq_iff_eq]
    exact toNat_eq_iff c 10 (by decide)
  have hls : (c.toNat == 0x2028) = (c == '\u2028') := by
    rw [Bool.eq_iff_iff, beq_iff_eq, beq_iff_eq]
    exact toNat_eq_iff c 0x2028 (by decide)
  have hps : (c.toNat == 0x2029) = (c == '\u2029') := by
    rw [Bool.eq_iff_iff, beq_iff_eq, beq_iff_eq]
    exact toNat_eq_iff c 0x2029 (by decide)
  unfold endsLine isLineBreak
  rw [hcr, hlf, hls, hps]
  by_cases hc : c = '\r'
  · subst hc
    cases next <;> simp [bne]
  · have hne : (c == '\r') = false := beq_false_of_ne hc
    simp [hne]

variable {c : Char} {next : Option Char} {s : Generator} {offset : Nat}

/-- A turn that takes one character -/
theorem turn_char {contents : List UInt8} {text : List Char} {b0 : UInt8}
    {bytes : List UInt8} (h : String.utf8EncodeChar c = b0 :: bytes) (hlength : wtf8ByteSequenceLength b0 = bytes.length + 1)
    (hoffset : u32 (contents.length - (utf8 (c :: text)).length : Nat) = offset)
    (hascii : ¬((s.prepare c.toNat offset).columnsForNonAscii = [] ∧ 14 ≤ c.toNat ∧ c.toNat ≤ 127))
    (hnext : text.head?.or next = text.head?) :
    turn contents (b0 :: (bytes ++ utf8 text)) b0 s = .ok (utf8 text, s.readChar offset c (text.head?.or next)) := by
  have hfront : decodeFront (b0 :: (bytes ++ utf8 text)) b0 = c.toNat := by
    have := decodeFront_char c (utf8 text) h hlength
    rwa [h] at this
  have hbytes : utf8 (c :: text) = b0 :: (bytes ++ utf8 text) := by rw [utf8_cons, h]; rfl
  have hdrop : (b0 :: (bytes ++ utf8 text)).drop (wtf8ByteSequenceLength b0) = utf8 text := by
    rw [hlength, List.drop_succ_cons, List.drop_left]
  have hlen : wtf8ByteSequenceLength b0 ≤ (b0 :: (bytes ++ utf8 text)).length := by
    simp only [List.length_cons, List.length_append]
    omega
  rw [hbytes] at hoffset
  have hturn := turn_sequence (s := s) hlen hoffset (by rw [hfront]; exact hascii)
  rw [hturn, hfront, hdrop]
  unfold readChar
  simp only
  rw [hnext, endsLine_eq, units_single]
  by_cases hbreak : isLineBreak c.toNat = true
  · rw [if_pos hbreak]
    by_cases hcr : c.toNat = 0x0D
    · have hone : bytes = [] := by
        have := size_single_ascii (c := c) (by omega)
        rw [size_single, h] at this
        exact List.eq_nil_of_length_eq_zero (by simpa using this.1)
      subst hone
      have hhead : ([] ++ utf8 text).head? = some (0x0A : UInt8) ↔ text.head? = some '\n' :=
        head?_utf8 (by decide)
      by_cases hlf : text.head? = some '\n'
      · rw [if_pos ⟨hcr, hhead.2 hlf⟩]
        simp [hcr, hlf]
      · rw [if_neg fun hand => hlf (hhead.1 hand.2)]
        simp [hbreak, hlf]
    · rw [if_neg fun hand => hcr hand.1]
      simp [hbreak, hcr]
  · rw [if_neg hbreak]
    simp [hbreak]

/-! ### Runs of ASCII -/

theorem prepare_ascii {c offset : Nat} (h : c ≤ 127) : s.prepare c offset = s.startLine offset :=
  if_neg fun hand => absurd hand.1 (Nat.not_lt.2 h)

theorem columns_startLine (s : Generator) (offset : Nat) : (s.startLine offset).columnsForNonAscii = s.columnsForNonAscii := by
  unfold startLine
  split <;> rfl

theorem startLine_of_column (h : s.column ≠ 0) : s.startLine offset = s := if_neg h

theorem advance_advance (s : Generator) (a b : Nat) : (s.advance a).advance b = s.advance (a + b) := by
  unfold advance
  rw [i32_add, Nat.cast_add, add_assoc]

theorem endsLine_ascii (hlow : 14 ≤ c.toNat) (hhigh : c.toNat ≤ 127) :
    endsLine c next = false := by
  rw [endsLine_eq, Bool.and_eq_false_iff]
  left
  simp only [isLineBreak, Bool.or_eq_false_iff, beq_eq_false_iff_ne]
  omega

theorem readChar_ascii (hcolumns : s.columnsForNonAscii = [])
    (hlow : 14 ≤ c.toNat) (hhigh : c.toNat ≤ 127) : s.readChar offset c next = (s.startLine offset).advance 1 := by
  have hfill : (s.startLine offset).fillColumns offset = s.startLine offset :=
    if_pos ((columns_startLine s offset).trans hcolumns)
  unfold readChar
  simp only
  rw [prepare_ascii hhigh, hfill, endsLine_ascii hlow hhigh, (size_single_ascii hhigh).2]
  rfl

/-- A run of ASCII is skipped as it would be read. -/
theorem readText_run {run : List Char} (hne : run ≠ [])
    (hrun : ∀ c ∈ run, 14 ≤ c.toNat ∧ c.toNat ≤ 127) (hcolumns : s.columnsForNonAscii = []) (hs : Reading offset s)
    (hfits : offset + run.length < 2147483648) :
    readText s offset run next = (s.startLine offset).advance run.length := by
  induction run generalizing s offset with
  | nil => exact absurd rfl hne
  | cons c run ih =>
    obtain ⟨hc, hrun⟩ := List.forall_mem_cons.1 hrun
    rw [List.length_cons] at hfits
    rw [readText, readChar_ascii hcolumns hc.1 hc.2, (size_single_ascii hc.2).1]
    by_cases hnil : run = []
    · subst hnil
      rfl
    · have hprepared := prepared_startLine s offset
      have hnext := hs.advance hprepared le_rfl le_rfl (k := 1) (by omega)
      have hcolumn := advance_column hprepared hs (le_refl 1) (by omega)
      have hstart : ((s.startLine offset).advance 1).startLine (offset + 1) = (s.startLine offset).advance 1 := by
        apply startLine_of_column
        have := hs.column.1
        omega
      have hih := ih (s := (s.startLine offset).advance 1) hnil hrun
        ((columns_startLine s offset).trans hcolumns) hnext (by omega)
      rw [hih, hstart, advance_advance, List.length_cons, Nat.add_comm]

/-- Bytes of ASCII at the front are characters. -/
theorem split_ascii {text : List Char} {k : Nat} (h : ∀ b ∈ (utf8 text).take k, 14 ≤ b ∧ b ≤ 127)
    (hk : k ≤ (utf8 text).length) :
    ∃ run rest, text = run ++ rest ∧ run.length = k ∧ size run = k ∧ (∀ c ∈ run, 14 ≤ c.toNat ∧ c.toNat ≤ 127) ∧
      (utf8 text).drop k = utf8 rest := by
  induction k generalizing text with
  | zero => exact ⟨[], text, rfl, rfl, rfl, by simp, rfl⟩
  | succ k ih =>
    cases text with
    | nil => exact absurd hk (Nat.not_succ_le_zero k)
    | cons c text =>
      obtain ⟨b0, bytes, hbytes, -⟩ := encodeChar_length c
      have hcons : utf8 (c :: text) = b0 :: (bytes ++ utf8 text) := by rw [utf8_cons, hbytes]; rfl
      rw [hcons, List.take_succ_cons, List.forall_mem_cons] at h
      obtain ⟨⟨hlow, hhigh⟩, htail⟩ := h
      have hlow : 14 ≤ b0.toNat := UInt8.le_iff_toNat_le.1 hlow
      have hhigh : b0.toNat ≤ 127 := UInt8.le_iff_toNat_le.1 hhigh
      have hc : c.toNat = b0.toNat := by
        have hhead := (head?_utf8 hhigh).1 (by rw [hcons]; rfl)
        rw [Option.some.inj hhead]
        exact toNat_ofNat_ascii b0.toNat (by omega)
      have hnil : bytes = [] := by
        have := (size_single_ascii (c := c) (by omega)).1
        rw [size_single, hbytes] at this
        exact List.eq_nil_of_length_eq_zero (by simpa using this)
      subst hnil
      rw [hcons] at hk
      obtain ⟨run, rest, rfl, hlength, hsize, hrun, hdrop⟩ := ih htail (Nat.le_of_succ_le_succ hk)
      refine ⟨c :: run, rest, rfl, congrArg _ hlength, ?_, List.forall_mem_cons.2 ⟨by omega, hrun⟩, ?_⟩
      · rw [size_cons, hsize, (size_single_ascii (c := c) (by omega)).1, Nat.add_comm]
      · rw [hcons]
        exact hdrop

theorem reading_readChar (hs : Reading offset s)
    (hfits : offset + size [c] < 2147483648) : Reading (offset + size [c]) (s.readChar offset c next) := by
  have hfilled := (prepared s c.toNat offset).fillColumns
  unfold readChar
  simp only
  split
  · exact hs.newline hfilled (size_pos c)
  · exact hs.advance hfilled (units_pos (List.cons_ne_nil c [])) (units_le_size [c]) hfits

/-- The loop reads a text character by character. -/
theorem read_text {contents : List UInt8} (hfits : contents.length < 2147483648) :
    ∀ (n offset : Nat) (text : List Char) (s : Generator), Reading offset s →
      offset + (utf8 text).length = contents.length → (utf8 text).length ≤ n →
      read contents n (utf8 text) s = .ok (readText s offset text none) := by
  intro n
  induction n with
  | zero =>
    intro offset text s _ _ hn
    cases text with
    | nil => rfl
    | cons c text =>
      have := size_pos c
      have hsize : (utf8 (c :: text)).length = size [c] + size text := size_cons c text
      omega
  | succ n ih =>
    intro offset text s hs hoffset hn
    cases text with
    | nil => rfl
    | cons c text =>
      obtain ⟨b0, bytes, hbytes, hlength⟩ := encodeChar_length c
      have hcons : utf8 (c :: text) = b0 :: (bytes ++ utf8 text) := by rw [utf8_cons, hbytes]; rfl
      have hsize : (utf8 (c :: text)).length = size [c] + (utf8 text).length := size_cons c text
      have hoff : u32 (contents.length - (utf8 (c :: text)).length : Nat) = offset := by
        rw [u32_of_lt (by show _ < 4294967296; omega)]
        omega
      have hfront : decodeFront (b0 :: (bytes ++ utf8 text)) b0 = c.toNat := by
        have := decodeFront_char c (utf8 text) hbytes hlength
        rwa [hbytes] at this
      by_cases hascii : (s.prepare c.toNat offset).columnsForNonAscii = [] ∧ 14 ≤ c.toNat ∧ c.toNat ≤ 127
      · have hoff' := hoff
        rw [hcons] at hoff'
        have hturn := turn_skip (s := s) hoff' (by rw [hfront]; exact hascii)
        have hb0 := @ascii_front b0 (bytes ++ utf8 text) (by omega) (by omega)
        obtain ⟨k, hk, hkle, hrun, hskip⟩ := skipAscii_spec hb0 (by rw [← hcons]; omega) (s.prepare c.toNat offset)
        rw [hfront, hskip] at hturn
        rw [← hcons] at hkle hrun hturn
        obtain ⟨run, rest, htext, hlen, hrunSize, hchars, hdrop⟩ := split_ascii hrun hkle
        have hcolumns : s.columnsForNonAscii = [] := by
          rw [← columns_startLine s offset, ← prepare_ascii hascii.2.2]
          exact hascii.1
        have hne : run ≠ [] := fun heq => by
          rw [heq] at hlen
          rw [← hlen] at hk
          exact absurd hk (by decide)
        have htotal : (utf8 (c :: text)).length = k + (utf8 rest).length := by
          rw [htext]
          exact (size_append run rest).trans (congrArg (· + size rest) hrunSize)
        have hprepared := prepared s c.toNat offset
        have hnext : Reading (offset + k) ((s.prepare c.toNat offset).advance k) :=
          hs.advance hprepared hk le_rfl (by omega)
        have hread : readText s offset (c :: text) none =
            readText ((s.prepare c.toNat offset).advance k) (offset + k) rest none := by
          rw [htext, readText_append, readText_run hne hchars hcolumns hs (by omega), hrunSize, hlen, prepare_ascii hascii.2.2]
        rw [hread, ← ih (offset + k) rest _ hnext (by omega) (by omega), ← hdrop]
        conv_lhs => rw [hcons]
        rw [read, ← hcons, hturn]
        rfl
      · have hnext : text.head?.or none = text.head? := by cases text.head? <;> rfl
        have hturn := turn_char (s := s) hbytes hlength hoff hascii hnext
        have hs' : Reading (offset + size [c]) (s.readChar offset c (text.head?.or none)) :=
          reading_readChar hs (by omega)
        have hpos := size_pos c
        rw [hcons, read, hturn, readText, ← ih (offset + size [c]) text _ hs' (by omega) (by omega)]
        rfl

end Generator

end LineOffsetTable
end Funbun.SourceMap
