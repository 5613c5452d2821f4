import Funbun.Library.Checked
import Funbun.Library.Utf16

/-! Reading characters from bytes.

The length of a sequence is taken from its first byte alone. What is no sequence is read as a replacement. -/
namespace Funbun.Strings
open Library

/-- `wtf8_byte_sequence_length_with_invalid` is the same. -/
def wtf8ByteSequenceLength (firstByte : UInt8) : Nat :=
  if firstByte ≤ 0x7F then 1
  else if 0xC0 ≤ firstByte ∧ firstByte ≤ 0xDF then 2
  else if 0xE0 ≤ firstByte ∧ firstByte ≤ 0xEF then 3
  else if 0xF0 ≤ firstByte ∧ firstByte ≤ 0xF7 then 4
  else 1

/-- Whether a byte is one behind the first of a sequence -/
def isContinuation (byte : UInt8) : Bool := byte &&& 0xC0 == 0x80

/-- `decode_wtf8_rune_t_multibyte`. The bytes are four, the last ones may be zero. -/
def decodeWtf8RuneMultibyte (p : List UInt8) (len zeroCp : Nat) : Nat :=
  let s0 := p.getD 0 0
  let s1 := p.getD 1 0
  let s2 := p.getD 2 0
  let s3 := p.getD 3 0
  if !isContinuation s1 then zeroCp
  else if len = 2 then
    let cp := (s0 &&& 0x1F).toNat <<< 6 ||| (s1 &&& 0x3F).toNat
    if cp < 0x80 then zeroCp else cp
  else if !isContinuation s2 then zeroCp
  else if len = 3 then
    let cp := (s0 &&& 0x0F).toNat <<< 12 ||| (s1 &&& 0x3F).toNat <<< 6 ||| (s2 &&& 0x3F).toNat
    if cp < 0x800 then zeroCp else cp
  else if !isContinuation s3 then zeroCp
  else
    let cp := (s0 &&& 0x07).toNat <<< 18 ||| (s1 &&& 0x3F).toNat <<< 12 ||| (s2 &&& 0x3F).toNat <<< 6 |||
      (s3 &&& 0x3F).toNat
    if cp < 0x10000 ∨ 0x10FFFF < cp then zeroCp else cp

/-- `decode_wtf8_rune_t` -/
def decodeWtf8Rune (p : List UInt8) (len zeroCp : Nat) : Nat :=
  if len = 0 then zeroCp else if len = 1 then (p.getD 0 0).toNat else decodeWtf8RuneMultibyte p len zeroCp

/-- What the scan stops at: control characters, and bytes that are not ASCII -/
def isNewlineOrNonAscii (byte : UInt8) : Bool := 127 < byte || byte < 0x20

theorem ascii_of_scanned {byte : UInt8} (h : isNewlineOrNonAscii byte = false) : 14 ≤ byte ∧ byte ≤ 127 := by
  simp only [isNewlineOrNonAscii, Bool.or_eq_false_iff, decide_eq_false_iff_not] at h
  have hlow : (0x20 : UInt8) ≤ byte := UInt8.not_lt.1 h.2
  exact ⟨UInt8.le_trans (by decide) hlow, UInt8.not_lt.1 h.1⟩

/-- `highway::index_of_newline_or_non_ascii` -/
def highwayIndexOfNewlineOrNonAscii (haystack : List UInt8) : Option Nat := haystack.findIdx? isNewlineOrNonAscii

/-- The place is cast to a `u32`. -/
def indexOfNewlineOrNonAsciiCheckStart (checkStart : Bool) (slice : List UInt8) (offset : Nat) : Checked (Option Nat) := do
  let remaining ← sliceFrom slice offset
  match remaining with
  | [] => return none
  | b :: _ =>
    if checkStart && (127 < b || (b < 0x20 && b != 0x09)) then return some offset
    else return (highwayIndexOfNewlineOrNonAscii remaining).map fun i => (i + offset) % UInt32.size

def indexOfNewlineOrNonAscii (slice : List UInt8) (offset : Nat) : Checked (Option Nat) :=
  indexOfNewlineOrNonAsciiCheckStart true slice offset

theorem wtf8ByteSequenceLength_pos (byte : UInt8) : 0 < wtf8ByteSequenceLength byte := by
  unfold wtf8ByteSequenceLength
  split_ifs <;> decide

theorem wtf8ByteSequenceLength_le (byte : UInt8) : wtf8ByteSequenceLength byte ≤ 4 := by
  unfold wtf8ByteSequenceLength
  split_ifs <;> decide

/-! ### Characters are read as they were written -/

theorem isContinuation_add : ∀ n < 64, isContinuation (UInt8.ofNat (n + 128)) = true := by decide +kernel

theorem low_add : ∀ n < 64, (UInt8.ofNat (n + 128) &&& 0x3F).toNat = n := by decide +kernel

theorem lead_two : ∀ n < 32, wtf8ByteSequenceLength (UInt8.ofNat (n + 192)) = 2 ∧ (UInt8.ofNat (n + 192) &&& 0x1F).toNat = n := by
  decide +kernel

theorem lead_three : ∀ n < 16, wtf8ByteSequenceLength (UInt8.ofNat (n + 224)) = 3 ∧ (UInt8.ofNat (n + 224) &&& 0x0F).toNat = n := by
  decide +kernel

theorem lead_four : ∀ n < 8, wtf8ByteSequenceLength (UInt8.ofNat (n + 240)) = 4 ∧ (UInt8.ofNat (n + 240) &&& 0x07).toNat = n := by
  decide +kernel

theorem lead_one : ∀ n < 128, wtf8ByteSequenceLength (UInt8.ofNat n) = 1 ∧ (UInt8.ofNat n).toNat = n := by decide +kernel

/-- Digits of six bits, the last one lowest -/
theorem shift_or {high low k : Nat} (hlow : low < 2 ^ k) : high <<< k ||| low = high * 2 ^ k + low := by
  rw [← Nat.shiftLeft_add_eq_or_of_lt hlow, Nat.shiftLeft_eq]

theorem or_two (a b : Nat) (hb : b < 64) : a <<< 6 ||| b = a * 64 + b := shift_or hb

theorem or_three (a b c : Nat) (hb : b < 64) (hc : c < 64) : a <<< 12 ||| b <<< 6 ||| c = a * 4096 + b * 64 + c := by
  rw [Nat.or_assoc, or_two b c hc, shift_or (by omega)]
  omega

theorem or_four (a b c d : Nat) (hb : b < 64) (hc : c < 64) (hd : d < 64) :
    a <<< 18 ||| b <<< 12 ||| c <<< 6 ||| d = a * 262144 + b * 4096 + c * 64 + d := by
  rw [Nat.or_assoc, Nat.or_assoc, ← Nat.or_assoc (b <<< 12), or_three b c d hc hd, shift_or (by omega)]
  omega

/-- The lead byte says how long a character is. -/
theorem encodeChar_length (c : Char) :
    ∃ lead rest, String.utf8EncodeChar c = lead :: rest ∧ wtf8ByteSequenceLength lead = rest.length + 1 := by
  have hlt := Utf16.toNat_lt c
  show ∃ lead rest, String.utf8EncodeChar c = lead :: rest ∧ _
  unfold String.utf8EncodeChar
  simp only
  split_ifs with h1 h2 h3
  · exact ⟨_, _, rfl, (lead_one _ (by omega)).1⟩
  · exact ⟨_, _, rfl, (lead_two _ (by omega)).1⟩
  · exact ⟨_, _, rfl, (lead_three _ (by omega)).1⟩
  · exact ⟨_, _, rfl, (lead_four _ (by omega)).1⟩

/-- A sequence of two bytes -/
theorem decode_two {s0 s1 : UInt8} {a b : Nat} (h0 : (s0 &&& 0x1F).toNat = a) (hc1 : isContinuation s1 = true)
    (h1 : (s1 &&& 0x3F).toNat = b) (hb : b < 64) (hcp : 0x80 ≤ a * 64 + b) (rest : List UInt8) (zeroCp : Nat) :
    decodeWtf8Rune (s0 :: s1 :: rest) 2 zeroCp = a * 64 + b := by
  have hlow : ¬a * 64 + b < 0x80 := Nat.not_lt.2 hcp
  show decodeWtf8RuneMultibyte (s0 :: s1 :: rest) 2 zeroCp = _
  simp only [decodeWtf8RuneMultibyte, List.getD_cons_zero, List.getD_cons_succ, h0, h1, hc1, or_two a b hb, if_neg hlow]
  rfl

theorem decode_three {s0 s1 s2 : UInt8} {a b c : Nat} (h0 : (s0 &&& 0x0F).toNat = a) (hc1 : isContinuation s1 = true)
    (h1 : (s1 &&& 0x3F).toNat = b) (hb : b < 64) (hc2 : isContinuation s2 = true) (h2 : (s2 &&& 0x3F).toNat = c)
    (hc : c < 64) (hcp : 0x800 ≤ a * 4096 + b * 64 + c) (rest : List UInt8) (zeroCp : Nat) :
    decodeWtf8Rune (s0 :: s1 :: s2 :: rest) 3 zeroCp = a * 4096 + b * 64 + c := by
  have hlow : ¬a * 4096 + b * 64 + c < 0x800 := Nat.not_lt.2 hcp
  show decodeWtf8RuneMultibyte (s0 :: s1 :: s2 :: rest) 3 zeroCp = _
  simp only [decodeWtf8RuneMultibyte, List.getD_cons_zero, List.getD_cons_succ, h0, h1, h2, hc1, hc2, or_three a b c hb hc,
    if_neg hlow]
  rfl

theorem decode_four {s0 s1 s2 s3 : UInt8} {a b c d : Nat} (h0 : (s0 &&& 0x07).toNat = a) (hc1 : isContinuation s1 = true)
    (h1 : (s1 &&& 0x3F).toNat = b) (hb : b < 64) (hc2 : isContinuation s2 = true) (h2 : (s2 &&& 0x3F).toNat = c)
    (hc : c < 64) (hc3 : isContinuation s3 = true) (h3 : (s3 &&& 0x3F).toNat = d) (hd : d < 64)
    (hcp : 0x10000 ≤ a * 262144 + b * 4096 + c * 64 + d ∧ a * 262144 + b * 4096 + c * 64 + d ≤ 0x10FFFF)
    (rest : List UInt8) (zeroCp : Nat) :
    decodeWtf8Rune (s0 :: s1 :: s2 :: s3 :: rest) 4 zeroCp = a * 262144 + b * 4096 + c * 64 + d := by
  have hrange : ¬(a * 262144 + b * 4096 + c * 64 + d < 0x10000 ∨ 0x10FFFF < a * 262144 + b * 4096 + c * 64 + d) := by omega
  show decodeWtf8RuneMultibyte (s0 :: s1 :: s2 :: s3 :: rest) 4 zeroCp = _
  simp only [decodeWtf8RuneMultibyte, List.getD_cons_zero, List.getD_cons_succ, h0, h1, h2, h3, hc1, hc2, hc3,
    or_four a b c d hb hc hd, if_neg hrange]
  rfl

/-- A character is read as it was written, whatever stands behind it. -/
theorem decodeWtf8Rune_encodeChar (c : Char) (rest : List UInt8) (zeroCp : Nat) :
    decodeWtf8Rune (String.utf8EncodeChar c ++ rest) (String.utf8EncodeChar c).length zeroCp = c.toNat := by
  have hlt : c.val.toNat < 0x110000 := Utf16.toNat_lt c
  show _ = c.val.toNat
  unfold String.utf8EncodeChar
  generalize c.val.toNat = v at hlt ⊢
  have h64 (n : Nat) : n % 64 < 64 := Nat.mod_lt _ (by decide)
  simp only
  split_ifs with h1 h2 h3
  · exact (lead_one _ (by omega)).2
  · calc _ = v / 64 % 32 * 64 + v % 64 :=
          decode_two (lead_two _ (by omega)).2 (isContinuation_add _ (h64 _)) (low_add _ (h64 _)) (h64 _) (by omega) rest zeroCp
      _ = v := by omega
  · calc _ = v / 4096 % 16 * 4096 + v / 64 % 64 * 64 + v % 64 :=
          decode_three (lead_three _ (by omega)).2 (isContinuation_add _ (h64 _)) (low_add _ (h64 _)) (h64 _)
            (isContinuation_add _ (h64 _)) (low_add _ (h64 _)) (h64 _) (by omega) rest zeroCp
      _ = v := by omega
  · calc _ = v / 262144 % 8 * 262144 + v / 4096 % 64 * 4096 + v / 64 % 64 * 64 + v % 64 :=
          decode_four (lead_four _ (by omega)).2 (isContinuation_add _ (h64 _)) (low_add _ (h64 _)) (h64 _)
            (isContinuation_add _ (h64 _)) (low_add _ (h64 _)) (h64 _) (isContinuation_add _ (h64 _)) (low_add _ (h64 _))
            (h64 _) (by omega) rest zeroCp
      _ = v := by omega

end Funbun.Strings
