import Funbun.SourceMap.LineOffsetProofs
import Funbun.SourceMap.Tracking

/-! The line and the column of printed code.

The look ahead behind a carriage return is one byte too far. So a Windows line break counts twice unless a line feed
follows it, and a carriage return does not count where the next character but one is a line feed. -/
namespace Funbun.SourceMap
open Library Strings LineOffsetTable.Generator

namespace Tracker

/-! ### Characters -/

/-- Whether a carriage return in front of these characters is passed over -/
def feedAhead : List Char → Bool
  | x :: y :: _ => x.toNat ≤ 0x7F && y == '\n'
  | _ => false

/-- The builder behind a character, `rest` being what has been printed behind it -/
def countChar (b : Builder) (c : Char) (rest : List Char) : Builder :=
  if isLineBreak c.toNat then if c = '\r' ∧ feedAhead rest then b else b.step .newline
  else b.step (.text (units [c]))

def countText (b : Builder) : List Char → Builder
  | [] => b
  | c :: rest => countText (countChar b c rest) rest

theorem second_byte_wide {c : Char} (h : 0x7F < c.toNat) (rest : List UInt8) :
    (String.utf8EncodeChar c ++ rest)[1]? ≠ some 0x0A := by
  have hadd (n : Nat) (hn : n < 64) : UInt8.ofNat (n + 128) ≠ 0x0A := by
    have := isContinuation_add n hn
    intro heq
    rw [heq] at this
    exact absurd this (by decide)
  have hwide : ¬c.val.toNat ≤ 0x7F := Nat.not_le.2 h
  unfold String.utf8EncodeChar
  simp only [if_neg hwide]
  split_ifs
  · simp only [List.cons_append, List.getElem?_cons_succ, List.getElem?_cons_zero, ne_eq, Option.some.injEq]
    exact hadd _ (by omega)
  · simp only [List.cons_append, List.getElem?_cons_succ, List.getElem?_cons_zero, ne_eq, Option.some.injEq]
    exact hadd _ (by omega)
  · simp only [List.cons_append, List.getElem?_cons_succ, List.getElem?_cons_zero, ne_eq, Option.some.injEq]
    exact hadd _ (by omega)

theorem encodeChar_ascii {c : Char} (h : c.toNat ≤ 0x7F) : ∃ byte, String.utf8EncodeChar c = [byte] := by
  have hsize := (size_single_ascii h).1
  rw [size_single] at hsize
  exact List.length_eq_one_iff.1 hsize

theorem second_byte (rest : List Char) : (utf8 rest)[1]? = some 0x0A ↔ feedAhead rest = true := by
  cases rest with
  | nil => exact ⟨fun h => (by cases h), fun h => (by cases h)⟩
  | cons x rest =>
    rw [utf8_cons]
    rcases Nat.lt_or_ge 0x7F x.toNat with hx | hx
    · refine iff_of_false (second_byte_wide hx _) ?_
      cases rest with
      | nil => exact Bool.false_ne_true
      | cons y rest => simp [feedAhead, hx]
    · obtain ⟨byte, hbyte⟩ := encodeChar_ascii hx
      have hhead := @head?_utf8 rest 0x0A (by decide)
      rw [hbyte, List.singleton_append, List.getElem?_cons_succ, ← List.head?_eq_getElem?, hhead]
      cases rest with
      | nil => simp [feedAhead]
      | cons y rest => simp [feedAhead, hx]

theorem step_text_text (b : Builder) (m n : Nat) : (b.step (.text m)).step (.text n) = b.step (.text (m + n)) := by
  unfold Builder.step
  simp only
  rw [i32_add, Nat.cast_add, add_assoc]

theorem countChar_ascii {c : Char} (hlow : 14 ≤ c.toNat) (hhigh : c.toNat ≤ 127) (b : Builder) (rest : List Char) :
    countChar b c rest = b.step (.text 1) := by
  have hbreak : ¬isLineBreak c.toNat = true := by
    simp only [isLineBreak, Bool.or_eq_true, beq_iff_eq]
    omega
  unfold countChar
  rw [if_neg hbreak, (size_single_ascii hhigh).2]

/-- A run of ASCII is counted at once. -/
theorem countText_run {run : List Char} (hne : run ≠ []) (hrun : ∀ c ∈ run, 14 ≤ c.toNat ∧ c.toNat ≤ 127) (b : Builder)
    (rest : List Char) : countText b (run ++ rest) = countText (b.step (.text run.length)) rest := by
  induction run generalizing b with
  | nil => exact absurd rfl hne
  | cons c run ih =>
    obtain ⟨hc, hrun⟩ := List.forall_mem_cons.1 hrun
    rw [List.cons_append, countText, countChar_ascii hc.1 hc.2]
    by_cases hnil : run = []
    · subst hnil
      rfl
    · rw [ih hnil hrun, step_text_text, List.length_cons, Nat.add_comm 1]

/-! ### The loop -/

/-- The scan behind a character of ASCII finds the end of a run, or none. -/
theorem indexOf_spec {slice : List UInt8} {i : Nat} (hi : i ≤ slice.length) (hfits : slice.length < 2147483648) :
    (∃ k, indexOfNewlineOrNonAscii slice i = .ok (some (i + k)) ∧ k ≤ (slice.drop i).length ∧
      ∀ b ∈ (slice.drop i).take k, 14 ≤ b ∧ b ≤ 127) ∨
    (indexOfNewlineOrNonAscii slice i = .ok none ∧ ∀ b ∈ slice.drop i, 14 ≤ b ∧ b ≤ 127) := by
  have hdrop : (slice.drop i).length = slice.length - i := List.length_drop
  unfold indexOfNewlineOrNonAscii indexOfNewlineOrNonAsciiCheckStart
  rw [sliceFrom_ok hi]
  cases hremaining : slice.drop i with
  | nil => exact .inr ⟨rfl, List.forall_mem_nil _⟩
  | cons b rest =>
    rw [hremaining] at hdrop
    simp only [bind, Except.bind, Bool.true_and]
    by_cases hstart : (decide (127 < b) || (decide (b < 0x20) && b != 0x09)) = true
    · rw [if_pos hstart]
      exact .inl ⟨0, rfl, Nat.zero_le _, List.forall_mem_nil _⟩
    · rw [if_neg hstart]
      cases hfind : highwayIndexOfNewlineOrNonAscii (b :: rest) with
      | none => exact .inr ⟨rfl, fun byte hbyte => ascii_of_scanned (List.findIdx?_eq_none_iff.1 hfind byte hbyte)⟩
      | some k =>
        obtain ⟨hk, -, hbefore⟩ := List.findIdx?_eq_some_iff_getElem.1 hfind
        have hmod : (k + i) % UInt32.size = i + k := by
          rw [Nat.mod_eq_of_lt (by show k + i < 4294967296; omega), Nat.add_comm]
        refine .inl ⟨k, ?_, Nat.le_of_lt hk, fun byte hbyte => ?_⟩
        · show Except.ok (some ((k + i) % UInt32.size)) = _
          rw [hmod]
        · obtain ⟨j, hj, rfl⟩ := List.mem_iff_getElem.1 hbyte
          rw [List.length_take] at hj
          rw [List.getElem_take]
          exact ascii_of_scanned (by simpa using hbefore j (by omega))

section Turn
variable {done before rest : List Char} {c : Char} (b : Builder)

theorem front (before rest : List Char) (c : Char) {lead : UInt8} {bytes : List UInt8}
    (h : String.utf8EncodeChar c = lead :: bytes) :
    indexAt (utf8 (before ++ c :: rest)) (size before) = .ok lead ∧
      (utf8 (before ++ c :: rest)).drop (size before) = String.utf8EncodeChar c ++ utf8 rest := by
  have hdrop : (utf8 (before ++ c :: rest)).drop (size before) = String.utf8EncodeChar c ++ utf8 rest := by
    rw [utf8_append]
    exact List.drop_left
  refine ⟨?_, hdrop⟩
  unfold indexAt
  rw [← List.head?_drop, hdrop, h]
  rfl

/-- A turn at a character that is no run of ASCII -/
theorem turn_char (hascii : ¬(14 ≤ c.toNat ∧ c.toNat ≤ 127)) :
    turn (utf8 (done ++ (before ++ c :: rest))) (utf8 (before ++ c :: rest)) (size done) (size before) b =
      .ok (size (before ++ [c]), countChar b c rest) := by
  obtain ⟨lead, bytes, hbytes, hlength⟩ := encodeChar_length c
  obtain ⟨hlead, hdrop⟩ := front before rest c hbytes
  have hlen : (String.utf8EncodeChar c).length = wtf8ByteSequenceLength lead := by
    rw [hbytes, hlength]
    rfl
  have hdecode : decodeWtf8Rune ((String.utf8EncodeChar c ++ utf8 rest).take (wtf8ByteSequenceLength lead))
      (wtf8ByteSequenceLength lead) 0xFFFD = c.toNat := by
    have := decodeWtf8Rune_encodeChar c [] 0xFFFD
    rw [List.append_nil, hlen] at this
    rw [← hlen, List.take_left, hlen]
    exact this
  have hnext : size before + wtf8ByteSequenceLength lead = size (before ++ [c]) := by
    rw [size_append, size_single, hlen]
  have hsecond : c.toNat = 0x0D →
      (utf8 (done ++ (before ++ c :: rest)))[size done + size (before ++ [c]) + 1]? = (utf8 rest)[1]? := by
    intro _
    have hsplit : done ++ (before ++ c :: rest) = (done ++ (before ++ [c])) ++ rest := by simp
    rw [hsplit, utf8_append, List.getElem?_append_right]
    · have hsize : (utf8 (done ++ (before ++ [c]))).length = size done + size (before ++ [c]) := size_append _ _
      rw [hsize, Nat.add_sub_cancel_left]
    · have hsize : (utf8 (done ++ (before ++ [c]))).length = size done + size (before ++ [c]) := size_append _ _
      omega
  unfold turn
  rw [hlead]
  simp only [bind, Except.bind, hdrop, hdecode, hnext, if_neg hascii]
  unfold countChar
  have hcr : c = '\r' ↔ c.toNat = 0x0D := (toNat_eq_iff c 13 (by decide)).symm
  by_cases hbreak : isLineBreak c.toNat = true
  · rw [if_pos hbreak, if_pos hbreak]
    by_cases hreturn : c.toNat = 0x0D
    · by_cases hfeed : feedAhead rest = true
      · rw [if_pos ⟨hreturn, (hsecond hreturn).trans ((second_byte rest).2 hfeed)⟩, if_pos ⟨hcr.2 hreturn, hfeed⟩]
        rfl
      · rw [if_neg fun hand => hfeed ((second_byte rest).1 ((hsecond hreturn).symm.trans hand.2)),
          if_neg fun hand => hfeed hand.2]
        rfl
    · rw [if_neg fun hand => hreturn hand.1, if_neg fun hand => hreturn (hcr.1 hand.1)]
      rfl
  · rw [if_neg hbreak, if_neg hbreak, units_single]
    rfl

/-- A turn at a run of ASCII -/
theorem turn_run (hfits : size (before ++ c :: rest) < 2147483648) (hlow : 14 ≤ c.toNat) (hhigh : c.toNat ≤ 127)
    (output : List UInt8) (last : Nat) :
    ∃ run rest', rest = run ++ rest' ∧ (∀ d ∈ run, 14 ≤ d.toNat ∧ d.toNat ≤ 127) ∧
      turn output (utf8 (before ++ c :: rest)) last (size before) b =
        .ok (size (before ++ c :: run), b.step (.text (c :: run).length)) := by
  obtain ⟨lead, bytes, hbytes, hlength⟩ := encodeChar_length c
  obtain ⟨hlead, hdrop⟩ := front before rest c hbytes
  have hone : (String.utf8EncodeChar c).length = 1 := (size_single c).symm.trans (size_single_ascii hhigh).1
  have hlen : wtf8ByteSequenceLength lead = 1 := by
    rw [hbytes] at hone
    rw [hlength]
    exact hone
  have hdecode : decodeWtf8Rune ((String.utf8EncodeChar c ++ utf8 rest).take 1) 1 0xFFFD = c.toNat := by
    have := decodeWtf8Rune_encodeChar c [] 0xFFFD
    rw [List.append_nil, hone] at this
    have htake := @List.take_left _ (String.utf8EncodeChar c) (utf8 rest)
    rw [hone] at htake
    rw [htake]
    exact this
  have hbehind : (utf8 (before ++ c :: rest)).drop (size before + 1) = utf8 rest := by
    rw [← List.drop_drop, hdrop]
    have := @List.drop_left _ (String.utf8EncodeChar c) (utf8 rest)
    rwa [hone] at this
  have htotal : (utf8 (before ++ c :: rest)).length = size before + (1 + size rest) := by
    rw [← (size_single_ascii hhigh).1, ← size_cons, ← size_append]
    rfl
  have hsize (run : List Char) : size (before ++ c :: run) = size before + 1 + size run := by
    rw [size_append, size_cons, (size_single_ascii hhigh).1, Nat.add_assoc]
  unfold turn
  rw [hlead]
  simp only [bind, Except.bind, hdrop, hlen, hdecode, if_pos (And.intro hlow hhigh)]
  rcases indexOf_spec (i := size before + 1) (by omega) hfits with
    ⟨k, hscan, hk, hrun⟩ | ⟨hscan, hrun⟩
  · rw [hbehind] at hk hrun
    obtain ⟨run, rest', hsplit, hlengthRun, hsizeRun, hchars, -⟩ := split_ascii hrun hk
    refine ⟨run, rest', hsplit, hchars, ?_⟩
    rw [hscan, hsize, hsizeRun, List.length_cons, hlengthRun]
    simp only
    rw [Nat.add_sub_cancel_left]
    rfl
  · rw [hbehind] at hrun
    obtain ⟨run, rest', hsplit, hlengthRun, hsizeRun, hchars, hnil⟩ :=
      split_ascii (k := (utf8 rest).length) (by rw [List.take_length]; exact hrun) le_rfl
    refine ⟨run, rest', hsplit, hchars, ?_⟩
    rw [hscan, hsize, hsizeRun, List.length_cons, hlengthRun, sliceFrom_ok (by omega), hbehind, htotal]
    show Except.ok (_, _) = _
    rw [← Nat.add_assoc]
    rfl

end Turn

/-- The loop reads what is new character by character. -/
theorem loop_text (done : List Char) :
    ∀ (n : Nat) (before rest : List Char) (b : Builder), size (before ++ rest) < 2147483648 → size rest ≤ n →
      loop (utf8 (done ++ (before ++ rest))) (utf8 (before ++ rest)) (size done) n (size before) b =
        .ok (countText b rest) := by
  intro n
  induction n with
  | zero =>
    intro before rest b _ hn
    cases rest with
    | nil =>
      rw [List.append_nil]
      exact if_neg (Nat.lt_irrefl _)
    | cons c rest =>
      have := size_pos c
      have := size_cons c rest
      omega
  | succ n ih =>
    intro before rest b hfits hn
    cases rest with
    | nil =>
      rw [List.append_nil, loop]
      exact if_neg (Nat.lt_irrefl _)
    | cons c rest =>
      have hpos := size_pos c
      have hcons := size_cons c rest
      have hsize : (utf8 (before ++ c :: rest)).length = size before + size (c :: rest) := size_append before (c :: rest)
      rw [loop, if_pos (by omega)]
      by_cases hascii : 14 ≤ c.toNat ∧ c.toNat ≤ 127
      · obtain ⟨run, rest', rfl, hrun, hturn⟩ := turn_run b hfits hascii.1 hascii.2 (utf8 (done ++ (before ++ c :: rest)))
          (size done)
        have hsplit : before ++ c :: (run ++ rest') = (before ++ c :: run) ++ rest' := by simp
        have hrest := size_append run rest'
        rw [hturn]
        show loop _ _ _ n _ _ = _
        rw [hsplit] at hfits ⊢
        rw [ih (before ++ c :: run) rest' _ hfits (by omega), ← List.cons_append,
          countText_run (List.cons_ne_nil _ _) (List.forall_mem_cons.2 ⟨hascii, hrun⟩)]
      · have hsplit : before ++ c :: rest = (before ++ [c]) ++ rest := by simp
        rw [turn_char b hascii]
        show loop _ _ _ n _ _ = _
        rw [hsplit] at hfits ⊢
        rw [ih (before ++ [c]) rest _ hfits (by omega), countText]

theorem pureAscii_spec {piece : List Char} (hfits : size piece < 2147483648) :
    Returns (pureAscii (utf8 piece)) fun pure => pure = true → ∀ b ∈ utf8 piece, 14 ≤ b ∧ b ≤ 127 := by
  unfold pureAscii
  by_cases hshort : (utf8 piece).length < 16
  · rw [if_pos hshort]
    refine .ok fun hpure b hb => ascii_of_scanned ?_
    rw [Bool.not_eq_true', List.any_eq_false] at hpure
    exact Bool.eq_false_iff.2 (hpure b hb)
  · rw [if_neg hshort]
    rcases indexOf_spec (Nat.zero_le _) hfits with ⟨k, hscan, -⟩ | ⟨hscan, hpure⟩
    · rw [hscan]
      exact .ok fun h => absurd h Bool.false_ne_true
    · rw [hscan]
      exact .ok fun _ => hpure

/-- An update counts what is new, whichever path it takes. -/
theorem update_text {done piece : List Char} (b : Builder) (hfits : size (done ++ piece) < 2147483648)
    (hcolumn : Int32Range b.generatedColumn) :
    updateGeneratedLineAndColumn ⟨b, size done⟩ (utf8 (done ++ piece)) =
      .ok ⟨countText b piece, size (done ++ piece)⟩ := by
  have hsize : size (done ++ piece) = size done + size piece := size_append done piece
  have hslice : sliceFrom (utf8 (done ++ piece)) (size done) = .ok (utf8 piece) := by
    rw [sliceFrom_ok (by show size done ≤ size (done ++ piece); omega), utf8_append]
    exact congrArg _ List.drop_left
  have hlast : u32 (utf8 (done ++ piece)).length = size (done ++ piece) := by
    show u32 (size (done ++ piece) : Nat) = _
    exact u32_of_lt (by show _ < 4294967296; omega)
  obtain ⟨pure, hpure, hascii⟩ := @pureAscii_spec piece (by omega)
  unfold updateGeneratedLineAndColumn
  rw [hslice]
  simp only [bind, Except.bind, hpure]
  cases pure with
  | true =>
    rw [if_pos rfl, hlast]
    show Except.ok (Tracker.mk _ _) = _
    obtain ⟨run, rest, hsplit, hlength, -, hrun, hrest⟩ :=
      split_ascii (k := (utf8 piece).length) (by rw [List.take_length]; exact hascii rfl) le_rfl
    have hnil : rest = [] := by
      rw [List.drop_length] at hrest
      cases rest with
      | nil => rfl
      | cons d rest =>
        have := size_pos d
        have hzero : size (d :: rest) = 0 := congrArg List.length hrest.symm
        have := size_cons d rest
        omega
    rw [hnil, List.append_nil] at hsplit
    rw [← hlength, ← hsplit]
    by_cases hne : piece = []
    · subst hne
      have hzero : b.step (.text 0) = b := by
        unfold Builder.step
        simp only
        rw [Nat.cast_zero, Int.add_zero, i32_of_range hcolumn]
      show Except.ok (Tracker.mk (b.step (.text 0)) _) = _
      rw [hzero]
      rfl
    · have hcount := countText_run hne (hsplit ▸ hrun) b []
      rw [List.append_nil] at hcount
      rw [hcount]
      rfl
  | false =>
    rw [if_neg Bool.false_ne_true]
    unfold updateGeneratedLineAndColumnSlow
    have hloop : loop (utf8 (done ++ piece)) (utf8 piece) (size done) (utf8 piece).length 0 b = .ok (countText b piece) :=
      loop_text done (size piece) [] piece b (by rw [List.nil_append]; omega) le_rfl
    simp only [bind, Except.bind, hslice, hloop, hlast]
    rfl

end Tracker
end Funbun.SourceMap
