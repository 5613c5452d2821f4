import Funbun.SourceMap.LineOffsetTable

/-! Generating a table comes to its end where no sequence of bytes is cut off.

A sequence is as long as its first byte says. Where the source has that many bytes left, a turn takes them, or takes a run of
ASCII; where it has not, the slice behind the sequence is out of range. -/
namespace Funbun.SourceMap
open Library Strings

theorem u32_of_lt {n : Nat} (h : n < UInt32.size) : u32 n = n := by
  unfold u32
  rw [← Int.natCast_mod, Int.toNat_natCast, Nat.mod_eq_of_lt h]

theorem u32_sub {a b : Nat} (hle : b ≤ a) (h : a < UInt32.size) : u32 (a - b : Int) = a - b := by
  rw [← Int.ofNat_sub hle]
  exact u32_of_lt (by omega)

/-! ### Sequences -/

/-- Sequence by sequence the bytes come out even. -/
inductive Whole : List UInt8 → Prop where
  | nil : Whole []
  | cons {b : UInt8} {rest : List UInt8} : wtf8ByteSequenceLength b ≤ (b :: rest).length →
      Whole ((b :: rest).drop (wtf8ByteSequenceLength b)) → Whole (b :: rest)

theorem whole_cons_iff {b : UInt8} {rest : List UInt8} :
    Whole (b :: rest) ↔ wtf8ByteSequenceLength b ≤ (b :: rest).length ∧
      Whole ((b :: rest).drop (wtf8ByteSequenceLength b)) := by
  constructor
  · intro h
    cases h with
    | cons hle hrest => exact ⟨hle, hrest⟩
  · exact fun h => .cons h.1 h.2

theorem sequenceLength_ascii {b : UInt8} (h : b ≤ 127) : wtf8ByteSequenceLength b = 1 := if_pos h

theorem whole_drop_ascii {bytes : List UInt8} {k : Nat} (h : ∀ b ∈ bytes.take k, b ≤ 127) :
    Whole bytes ↔ Whole (bytes.drop k) := by
  induction k generalizing bytes with
  | zero => rfl
  | succ k ih =>
    cases bytes with
    | nil => rfl
    | cons b rest =>
      rw [List.take_succ_cons, List.forall_mem_cons] at h
      rw [whole_cons_iff, sequenceLength_ascii h.1, List.drop_succ_cons, List.drop_zero, List.drop_succ_cons, ih h.2]
      exact and_iff_right (Nat.succ_pos _)

theorem isContinuation_zero : isContinuation 0 = false := by decide

/-- A sequence of several bytes is no ASCII character. -/
theorem decodeWtf8RuneMultibyte_range (p : List UInt8) (len : Nat) :
    decodeWtf8RuneMultibyte p len 0 = 0 ∨ 0x80 ≤ decodeWtf8RuneMultibyte p len 0 := by
  unfold decodeWtf8RuneMultibyte
  simp only
  split_ifs with h1 h2 h3 h4 h5 h6 h7 h8
  · exact .inl rfl
  · exact .inl rfl
  · exact .inr (Nat.not_lt.1 h3)
  · exact .inl rfl
  · exact .inl rfl
  · exact .inr (le_trans (by decide) (Nat.not_lt.1 h6))
  · exact .inl rfl
  · exact .inl rfl
  · exact .inr (le_trans (by decide) (Nat.not_lt.1 (not_or.1 h8).1))

/-- A sequence that is cut off is no character. -/
theorem decodeWtf8RuneMultibyte_cut {p : List UInt8} {len : Nat} (hlen : len ≤ 4) (hcut : p.length < len) (hone : 1 < len) :
    decodeWtf8RuneMultibyte p len 0 = 0 := by
  have hmissing (k : Nat) (hk : p.length ≤ k) : isContinuation (p.getD k 0) = false := by
    rw [List.getD_eq_default _ _ hk]
    exact isContinuation_zero
  unfold decodeWtf8RuneMultibyte
  simp only
  rcases Nat.lt_or_ge 1 p.length with h1 | h1
  · have hne2 : len ≠ 2 := by omega
    rcases Nat.lt_or_ge 2 p.length with h2 | h2
    · have hne3 : len ≠ 3 := by omega
      simp only [hne2, hne3, hmissing 3 (by omega), if_false, Bool.not_false, if_true, ite_self]
    · simp only [hne2, hmissing 2 h2, if_false, Bool.not_false, if_true, ite_self]
  · simp only [hmissing 1 h1, Bool.not_false, if_true]

namespace LineOffsetTable
namespace Generator

variable {remaining : List UInt8} {b0 : UInt8}

theorem decodeFront_one (h : wtf8ByteSequenceLength b0 = 1) :
    decodeFront remaining b0 = b0.toNat := if_pos h

theorem decodeFront_multi (h : wtf8ByteSequenceLength b0 ≠ 1) :
    decodeFront remaining b0 =
      decodeWtf8RuneMultibyte (remaining.take (wtf8ByteSequenceLength b0)) (wtf8ByteSequenceLength b0) 0 := by
  have hzero : wtf8ByteSequenceLength b0 ≠ 0 := Nat.ne_zero_of_lt (wtf8ByteSequenceLength_pos b0)
  unfold decodeFront decodeWtf8Rune
  simp only [if_neg h, if_neg hzero]

/-- The only characters below 128 that are not what their byte says are sequences that are none. -/
theorem length_of_ascii (hlow : 14 ≤ decodeFront remaining b0)
    (hhigh : decodeFront remaining b0 ≤ 127) : wtf8ByteSequenceLength b0 = 1 := by
  by_contra hne
  rw [decodeFront_multi hne] at hlow hhigh
  rcases decodeWtf8RuneMultibyte_range (remaining.take (wtf8ByteSequenceLength b0)) (wtf8ByteSequenceLength b0) with h | h
  · omega
  · omega

theorem decodeFront_cut (hcut : remaining.length < wtf8ByteSequenceLength b0)
    (hne : remaining ≠ []) : decodeFront remaining b0 = 0 := by
  have hpos : 0 < remaining.length := List.length_pos_of_ne_nil hne
  rw [decodeFront_multi (by omega)]
  apply decodeWtf8RuneMultibyte_cut (wtf8ByteSequenceLength_le b0) _ (by omega)
  rw [List.length_take]
  omega

/-! ### What a turn leaves alone -/

/-- Where the line starts that a character at an offset is on -/
def lineStart (s : Generator) (offset : Nat) : Nat := if s.column = 0 then offset else s.lineByteOffset

/-- A state in which the character at an offset is counted, as far as its line is concerned -/
structure Prepared (s : Generator) (offset : Nat) (s' : Generator) : Prop where
  list : s'.list = s.list
  column : s'.column = s.column
  lineByteOffset : s'.lineByteOffset = s.lineStart offset

theorem prepared_startLine (s : Generator) (offset : Nat) : Prepared s offset (s.startLine offset) := by
  unfold startLine
  by_cases h : s.column = 0
  · rw [if_pos h]
    exact ⟨rfl, rfl, (if_pos h).symm⟩
  · rw [if_neg h]
    exact ⟨rfl, rfl, (if_neg h).symm⟩

theorem Prepared.meetNonAscii {s s' : Generator} {offset : Nat} (h : Prepared s offset s') (c : Nat) :
    Prepared s offset (s'.meetNonAscii c offset) := by
  unfold Generator.meetNonAscii
  split
  · exact ⟨h.list, h.column, h.lineByteOffset⟩
  · exact h

theorem Prepared.fillColumns {s s' : Generator} {offset : Nat} (h : Prepared s offset s') :
    Prepared s offset (s'.fillColumns offset) := by
  unfold Generator.fillColumns
  split
  · exact h
  · exact ⟨h.list, h.column, h.lineByteOffset⟩

/-! ### Line starts -/

def starts (list : List LineOffsetTable) : List Nat := list.map LineOffsetTable.byteOffsetToStartOfLine

/-- What holds when the source has been read up to an offset -/
structure Reading (offset : Nat) (s : Generator) : Prop where
  increasing : (starts s.list).Pairwise (· < ·)
  before : ∀ start ∈ starts s.list, start < s.lineStart offset
  within : s.lineStart offset ≤ offset
  column : 0 ≤ s.column ∧ s.column ≤ offset

theorem reading_init : Reading 0 init := ⟨List.Pairwise.nil, by simp [starts, init], le_rfl, le_rfl, le_rfl⟩

section Moves
variable {s s' : Generator} {offset : Nat}

theorem starts_appendRow (h : Prepared s offset s') : starts s'.appendRow.list = starts s.list ++ [s.lineStart offset] := by
  simp only [appendRow, starts, List.map_append, List.map_singleton, h.list, h.lineByteOffset]

theorem Reading.increasing_row (hs : Reading offset s) (h : Prepared s offset s') :
    (starts s'.appendRow.list).Pairwise (· < ·) := by
  rw [starts_appendRow h, List.pairwise_append]
  refine ⟨hs.increasing, List.pairwise_singleton _ _, fun a ha b hb => ?_⟩
  rw [List.mem_singleton.1 hb]
  exact hs.before a ha

theorem Reading.le_of_row (hs : Reading offset s) (h : Prepared s offset s') :
    ∀ start ∈ starts s'.appendRow.list, start ≤ offset := by
  intro start hstart
  rw [starts_appendRow h, List.mem_append, List.mem_singleton] at hstart
  rcases hstart with hstart | rfl
  · exact le_trans (le_of_lt (hs.before start hstart)) hs.within
  · exact hs.within

theorem Reading.newline (hs : Reading offset s) (h : Prepared s offset s') {k : Nat} (hk : 1 ≤ k) :
    Reading (offset + k) s'.newline where
  increasing := hs.increasing_row h
  before start hstart := by
    have := hs.le_of_row h start hstart
    show start < offset + k
    omega
  within := le_rfl
  column := ⟨le_rfl, Int.natCast_nonneg _⟩

theorem advance_column (h : Prepared s offset s') (hs : Reading offset s) {columns k : Nat} (hle : columns ≤ k)
    (hfits : offset + k < 2147483648) : (s'.advance columns).column = s.column + columns := by
  have hcolumn := hs.column
  show i32 (s'.column + columns) = _
  rw [h.column]
  apply i32_of_range
  unfold Int32Range
  omega

theorem Reading.advance (hs : Reading offset s) (h : Prepared s offset s') {columns k : Nat} (hpos : 1 ≤ columns)
    (hle : columns ≤ k) (hfits : offset + k < 2147483648) : Reading (offset + k) (s'.advance columns) := by
  have hcolumn := advance_column h hs hle hfits
  have hrange := hs.column
  have hstart : (s'.advance columns).lineStart (offset + k) = s.lineStart offset := by
    have hne : (s'.advance columns).column ≠ 0 := by omega
    rw [lineStart, if_neg hne]
    exact h.lineByteOffset
  have hlist : (s'.advance columns).list = s.list := h.list
  constructor
  · rw [hlist]
    exact hs.increasing
  · rw [hlist, hstart]
    exact hs.before
  · rw [hstart]
    exact le_trans hs.within (Nat.le_add_right _ _)
  · rw [hcolumn]
    omega

end Moves

/-! ### A turn -/

/-- A run of ASCII is skipped up to a line break, another control character, a character that is not ASCII or the end. -/
theorem skipAscii_spec {rest : List UInt8} (hb0 : 14 ≤ b0 ∧ b0 ≤ 127) (hfits : (b0 :: rest).length < 2147483648)
    (s : Generator) :
    ∃ k, 1 ≤ k ∧ k ≤ (b0 :: rest).length ∧ (∀ b ∈ (b0 :: rest).take k, 14 ≤ b ∧ b ≤ 127) ∧
      skipAscii (b0 :: rest) 1 s = .ok ((b0 :: rest).drop k, s.advance k) := by
  have hslice : sliceFrom (b0 :: rest) 1 = .ok rest := sliceFrom_ok (by simp)
  have hlength : (b0 :: rest).length = rest.length + 1 := rfl
  have hnone (h : ∀ b ∈ rest, isNewlineOrNonAscii b = false)
      (hscan : indexOfNewlineOrNonAsciiCheckStart false (b0 :: rest) 1 = .ok none) :
      ∃ k, 1 ≤ k ∧ k ≤ (b0 :: rest).length ∧ (∀ b ∈ (b0 :: rest).take k, 14 ≤ b ∧ b ≤ 127) ∧
        skipAscii (b0 :: rest) 1 s = .ok ((b0 :: rest).drop k, s.advance k) := by
    refine ⟨(b0 :: rest).length, by simp, le_rfl, ?_, ?_⟩
    · rw [List.take_length]
      exact List.forall_mem_cons.2 ⟨hb0, fun b hb => ascii_of_scanned (h b hb)⟩
    · unfold skipAscii
      rw [hscan]
      show (castTo i32Max _ >>= _) = _
      rw [castTo_ok (by unfold i32Max; omega)]
      show (sliceFrom _ _ >>= _) = _
      rw [sliceFrom_ok le_rfl]
      rfl
  cases rest with
  | nil => exact hnone (by simp) rfl
  | cons b1 rest =>
    have hscan : indexOfNewlineOrNonAsciiCheckStart false (b0 :: b1 :: rest) 1 =
        .ok ((highwayIndexOfNewlineOrNonAscii (b1 :: rest)).map fun i => (i + 1) % UInt32.size) := by
      unfold indexOfNewlineOrNonAsciiCheckStart
      rw [hslice]
      rfl
    cases hfind : highwayIndexOfNewlineOrNonAscii (b1 :: rest) with
    | none =>
      rw [hfind] at hscan
      exact hnone (List.findIdx?_eq_none_iff.1 hfind) hscan
    | some i =>
      obtain ⟨hi, -, hbefore⟩ := List.findIdx?_eq_some_iff_getElem.1 hfind
      have hmod : (i + 1) % UInt32.size = i + 1 := Nat.mod_eq_of_lt (by show i + 1 < 4294967296; omega)
      rw [hfind, Option.map_some, hmod] at hscan
      refine ⟨i + 1, by omega, by omega, ?_, ?_⟩
      · rw [List.take_succ_cons]
        refine List.forall_mem_cons.2 ⟨hb0, fun b hb => ?_⟩
        obtain ⟨j, hj, rfl⟩ := List.mem_iff_getElem.1 hb
        rw [List.length_take] at hj
        rw [List.getElem_take]
        exact ascii_of_scanned (by simpa using hbefore j (by omega))
      · unfold skipAscii
        rw [hscan]
        show (castTo i32Max _ >>= _) = _
        rw [castTo_ok (by unfold i32Max; omega)]
        show (sliceFrom _ _ >>= _) = _
        rw [sliceFrom_ok (by omega)]
        rfl

section Turn
variable {contents : List UInt8} {b0 : UInt8} {rest : List UInt8} {s : Generator}

theorem prepared (s : Generator) (c offset : Nat) : Prepared s offset (s.prepare c offset) :=
  (prepared_startLine s offset).meetNonAscii c

/-- A sequence that is cut off ends in a slice out of range. -/
theorem turn_cut (hcut : (b0 :: rest).length < wtf8ByteSequenceLength b0) :
    turn contents (b0 :: rest) b0 s = .error .index := by
  have hc := decodeFront_cut hcut (List.cons_ne_nil b0 rest)
  unfold turn
  simp only [hc]
  rw [if_neg (by omega), if_neg (by decide), sliceFrom_error hcut]
  rfl

/-- What a turn does that takes a sequence: the line ends, or goes on by a column or two. -/
theorem turn_sequence (hlen : wtf8ByteSequenceLength b0 ≤ (b0 :: rest).length) {offset : Nat}
    (hoffset : u32 (contents.length - (b0 :: rest).length : Nat) = offset)
    (hascii : ¬((s.prepare (decodeFront (b0 :: rest) b0) offset).columnsForNonAscii = [] ∧
      14 ≤ decodeFront (b0 :: rest) b0 ∧ decodeFront (b0 :: rest) b0 ≤ 127)) :
    turn contents (b0 :: rest) b0 s =
      .ok
        (if isLineBreak (decodeFront (b0 :: rest) b0) then
          if decodeFront (b0 :: rest) b0 = 0x0D ∧ rest.head? = some 0x0A then
            (rest, ((s.prepare (decodeFront (b0 :: rest) b0) offset).fillColumns offset).advance 1)
          else
            ((b0 :: rest).drop (wtf8ByteSequenceLength b0),
              ((s.prepare (decodeFront (b0 :: rest) b0) offset).fillColumns offset).newline)
        else
          ((b0 :: rest).drop (wtf8ByteSequenceLength b0),
            ((s.prepare (decodeFront (b0 :: rest) b0) offset).fillColumns offset).advance
              (if 0xFFFF < decodeFront (b0 :: rest) b0 then 2 else 1))) := by
  have hsecond : (b0 :: rest)[1]? = rest.head? := by
    rw [List.head?_eq_getElem?]
    rfl
  unfold turn
  simp only [hoffset, hsecond]
  rw [if_neg hascii]
  by_cases hbreak : isLineBreak (decodeFront (b0 :: rest) b0) = true
  · rw [if_pos hbreak, if_pos hbreak]
    by_cases hwindows : decodeFront (b0 :: rest) b0 = 0x0D ∧ rest.head? = some 0x0A
    · rw [if_pos hwindows, if_pos hwindows, sliceFrom_ok (by simp)]
      rfl
    · rw [if_neg hwindows, if_neg hwindows, sliceFrom_ok hlen]
      rfl
  · rw [if_neg hbreak, if_neg hbreak, sliceFrom_ok hlen]
    rfl

theorem turn_skip {offset : Nat} (hoffset : u32 (contents.length - (b0 :: rest).length : Nat) = offset)
    (hascii : (s.prepare (decodeFront (b0 :: rest) b0) offset).columnsForNonAscii = [] ∧
      14 ≤ decodeFront (b0 :: rest) b0 ∧ decodeFront (b0 :: rest) b0 ≤ 127) :
    turn contents (b0 :: rest) b0 s = skipAscii (b0 :: rest) 1 (s.prepare (decodeFront (b0 :: rest) b0) offset) := by
  have hone := length_of_ascii hascii.2.1 hascii.2.2
  unfold turn
  simp only [hoffset]
  rw [if_pos hascii, hone]

theorem ascii_front (hlow : 14 ≤ decodeFront (b0 :: rest) b0) (hhigh : decodeFront (b0 :: rest) b0 ≤ 127) :
    14 ≤ b0 ∧ b0 ≤ 127 := by
  have hone := length_of_ascii hlow hhigh
  rw [decodeFront_one hone] at hlow hhigh
  exact ⟨UInt8.le_iff_toNat_le.2 hlow, UInt8.le_iff_toNat_le.2 hhigh⟩

theorem whole_windows (h : decodeFront (b0 :: rest) b0 = 0x0D) : wtf8ByteSequenceLength b0 = 1 := by
  by_contra hne
  rw [decodeFront_multi hne] at h
  rcases decodeWtf8RuneMultibyte_range ((b0 :: rest).take (wtf8ByteSequenceLength b0)) (wtf8ByteSequenceLength b0) with h' | h'
  · omega
  · omega

/-- A turn whose sequence is not cut off moves on. -/
theorem turn_spec {offset : Nat} (hs : Reading offset s) (hoffset : offset + (b0 :: rest).length = contents.length)
    (hfits : contents.length < 2147483648) (hlen : wtf8ByteSequenceLength b0 ≤ (b0 :: rest).length) :
    ∃ k s', 1 ≤ k ∧ k ≤ (b0 :: rest).length ∧ turn contents (b0 :: rest) b0 s = .ok ((b0 :: rest).drop k, s') ∧
      Reading (offset + k) s' ∧ (Whole (b0 :: rest) ↔ Whole ((b0 :: rest).drop k)) := by
  have hpos := wtf8ByteSequenceLength_pos b0
  have hoff : u32 (contents.length - (b0 :: rest).length : Nat) = offset := by
    rw [u32_of_lt (by show _ < 4294967296; omega)]
    omega
  have hwhole : Whole (b0 :: rest) ↔ Whole ((b0 :: rest).drop (wtf8ByteSequenceLength b0)) :=
    whole_cons_iff.trans (and_iff_right hlen)
  have hprepared := prepared s (decodeFront (b0 :: rest) b0) offset
  by_cases hascii : (s.prepare (decodeFront (b0 :: rest) b0) offset).columnsForNonAscii = [] ∧
      14 ≤ decodeFront (b0 :: rest) b0 ∧ decodeFront (b0 :: rest) b0 ≤ 127
  · have hb0 := ascii_front hascii.2.1 hascii.2.2
    have hrest : (b0 :: rest).length < 2147483648 := by omega
    obtain ⟨k, hk, hkle, hrun, hskip⟩ := skipAscii_spec hb0 hrest (s.prepare (decodeFront (b0 :: rest) b0) offset)
    exact ⟨k, _, hk, hkle, (turn_skip hoff hascii).trans hskip, hs.advance hprepared hk le_rfl (by omega),
      whole_drop_ascii fun b hb => (hrun b hb).2⟩
  · have hturn := turn_sequence hlen hoff hascii
    have hfilled := hprepared.fillColumns
    by_cases hbreak : isLineBreak (decodeFront (b0 :: rest) b0) = true
    · by_cases hwindows : decodeFront (b0 :: rest) b0 = 0x0D ∧ rest.head? = some 0x0A
      · rw [if_pos hbreak, if_pos hwindows] at hturn
        rw [whole_windows hwindows.1] at hwhole
        exact ⟨1, _, le_rfl, by simp, hturn, hs.advance hfilled le_rfl le_rfl (by simp at hoffset; omega), hwhole⟩
      · rw [if_pos hbreak, if_neg hwindows] at hturn
        exact ⟨_, _, hpos, hlen, hturn, hs.newline hfilled hpos, hwhole⟩
    · rw [if_neg hbreak] at hturn
      have hcolumns : (if 0xFFFF < decodeFront (b0 :: rest) b0 then 2 else 1) ≤ wtf8ByteSequenceLength b0 := by
        split
        · rename_i hwide
          by_contra hlt
          have hone : wtf8ByteSequenceLength b0 = 1 := by omega
          rw [decodeFront_one hone] at hwide
          have := b0.toNat_lt
          omega
        · exact hpos
      have hcolumns' : 1 ≤ if 0xFFFF < decodeFront (b0 :: rest) b0 then 2 else 1 := by
        split <;> decide
      exact ⟨_, _, hpos, hlen, hturn, hs.advance hfilled hcolumns' hcolumns (by omega), hwhole⟩

end Turn

/-! ### The whole source -/

/-- Induction on the turns. -/
theorem read_spec {contents : List UInt8} (hfits : contents.length < 2147483648) :
    ∀ (n offset : Nat) (remaining : List UInt8) (s : Generator), Reading offset s →
      offset + remaining.length = contents.length → remaining.length ≤ n →
      (Whole remaining → Returns (read contents n remaining s) (Reading contents.length)) ∧
      (¬Whole remaining → read contents n remaining s = .error .index) := by
  intro n
  induction n with
  | zero =>
    intro offset remaining s hs hoffset hn
    obtain rfl := List.eq_nil_of_length_eq_zero (Nat.le_zero.1 hn)
    rw [List.length_nil, Nat.add_zero] at hoffset
    exact ⟨fun _ => .ok (hoffset ▸ hs), fun h => absurd .nil h⟩
  | succ n ih =>
    intro offset remaining s hs hoffset hn
    cases remaining with
    | nil =>
      rw [List.length_nil, Nat.add_zero] at hoffset
      exact ⟨fun _ => .ok (hoffset ▸ hs), fun h => absurd .nil h⟩
    | cons b0 rest =>
      rcases Nat.lt_or_ge (b0 :: rest).length (wtf8ByteSequenceLength b0) with hcut | hlen
      · refine ⟨fun h => absurd (whole_cons_iff.1 h).1 (Nat.not_le.2 hcut), fun _ => ?_⟩
        rw [read, turn_cut hcut]
        rfl
      · obtain ⟨k, s', hk, hkle, hturn, hs', hwhole⟩ := turn_spec hs hoffset hfits hlen
        have hdrop : ((b0 :: rest).drop k).length = (b0 :: rest).length - k := List.length_drop
        have hrest := ih (offset + k) ((b0 :: rest).drop k) s' hs' (by omega) (by omega)
        rw [read, hturn, hwhole]
        exact hrest

theorem starts_finish (contents : List UInt8) (hfits : contents.length < 2147483648) (s : Generator) :
    starts (finish contents s) = starts s.list ++ [s.lineStart contents.length] := by
  unfold finish appendRow lineStart starts
  rw [u32_of_lt (by show _ < 4294967296; omega)]
  simp only
  by_cases hcolumn : s.column = 0
  · simp only [if_pos hcolumn]
    split <;> simp
  · simp only [if_neg hcolumn]
    split <;> simp

end Generator

/-- Generating comes to its end, with line starts in order and within the source. -/
def Totals (contents : List UInt8) : Prop :=
  Returns (generate contents) fun list =>
    (Generator.starts list).Pairwise (· < ·) ∧ ∀ start ∈ Generator.starts list, start ≤ contents.length

theorem totals_of_whole {contents : List UInt8} (hfits : contents.length < 2147483648) (h : Whole contents) :
    Totals contents := by
  have hread := (Generator.read_spec hfits contents.length 0 contents .init Generator.reading_init (Nat.zero_add _)
    le_rfl).1 h
  refine hread.bind fun s hs => .ok ?_
  rw [Generator.starts_finish contents hfits]
  constructor
  · rw [List.pairwise_append]
    refine ⟨hs.increasing, List.pairwise_singleton _ _, fun a ha b hb => ?_⟩
    rw [List.mem_singleton.1 hb]
    exact hs.before a ha
  · intro start hstart
    rw [List.mem_append, List.mem_singleton] at hstart
    rcases hstart with hstart | rfl
    · exact le_trans (le_of_lt (hs.before start hstart)) hs.within
    · exact hs.within

theorem generate_cut {contents : List UInt8} (hfits : contents.length < 2147483648) (h : ¬Whole contents) :
    generate contents = .error .index := by
  have hread := (Generator.read_spec hfits contents.length 0 contents .init Generator.reading_init (Nat.zero_add _)
    le_rfl).2 h
  unfold generate
  rw [hread]
  rfl

/-- Generating comes to its end exactly where no sequence is cut off at the end of the source. -/
theorem generate_exact (contents : List UInt8) (hfits : contents.length < 2147483648) :
    Totals contents ↔ Whole contents := by
  constructor
  · intro h
    by_contra hcut
    obtain ⟨list, hlist, -⟩ := h
    rw [generate_cut hfits hcut] at hlist
    cases hlist
  · exact totals_of_whole hfits

theorem generate_exact_line : Totals [0x61, 0x0A, 0xC3, 0xA9] ∧ Whole [0x61, 0x0A, 0xC3, 0xA9] := by
  have hwhole : Whole [0x61, 0x0A, 0xC3, 0xA9] := .cons (by decide) (.cons (by decide) (.cons (by decide) .nil))
  exact ⟨(generate_exact _ (by decide)).2 hwhole, hwhole⟩

/-- The first byte of a sequence at the end -/
theorem generate_out_of_range : ¬ ∀ contents : List UInt8, contents.length < 2147483648 → Totals contents := by
  intro h
  obtain ⟨list, hlist, -⟩ := h [0xC3] (by decide)
  have hstop : generate [0xC3] = .error .index := by decide +kernel
  rw [hstop] at hlist
  cases hlist

end LineOffsetTable
end Funbun.SourceMap
