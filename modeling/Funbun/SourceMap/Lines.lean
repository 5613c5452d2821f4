import Funbun.Strings.Wtf8

/-! The lines of a text.

A line ends behind a line feed, behind a carriage return that has no line feed behind it, and behind the two separators of
Unicode. Columns are counted in UTF-16 units. -/
namespace Funbun.SourceMap
open Library Strings

/-- Whether a line ends behind a character -/
def endsLine (c : Char) (next : Option Char) : Bool :=
  c == '\n' || c == '\u2028' || c == '\u2029' || (c == '\r' && next != some '\n')

/-- The number of line breaks in a text, `next` being the character behind it -/
def terminators : List Char → Option Char → Nat
  | [], _ => 0
  | c :: text, next => (if endsLine c (text.head?.or next) then 1 else 0) + terminators text next

/-- What stands behind the last line break -/
def lastLine : List Char → Option Char → List Char
  | [], _ => []
  | c :: text, next => if terminators (c :: text) next = 0 then c :: text else lastLine text next

/-- The length of a text in UTF-16 -/
def units (text : List Char) : Nat := (Utf16.encode text).length

/-- The length of a text in UTF-8 -/
def size (text : List Char) : Nat := (utf8 text).length

theorem utf8_append (a b : List Char) : utf8 (a ++ b) = utf8 a ++ utf8 b := List.flatMap_append ..

theorem utf8_cons (c : Char) (text : List Char) : utf8 (c :: text) = String.utf8EncodeChar c ++ utf8 text := rfl

theorem size_append (a b : List Char) : size (a ++ b) = size a + size b := by
  unfold size
  rw [utf8_append, List.length_append]

theorem units_append (a b : List Char) : units (a ++ b) = units a + units b := by
  unfold units Utf16.encode
  rw [List.flatMap_append, List.length_append]

theorem size_cons (c : Char) (text : List Char) : size (c :: text) = size [c] + size text := size_append [c] text

theorem units_cons (c : Char) (text : List Char) : units (c :: text) = units [c] + units text := units_append [c] text

theorem size_single (c : Char) : size [c] = (String.utf8EncodeChar c).length := by
  show (String.utf8EncodeChar c ++ []).length = _
  rw [List.append_nil]

theorem units_single (c : Char) : units [c] = if 0xFFFF < c.toNat then 2 else 1 := by
  show (Utf16.encodeChar c ++ []).length = _
  rw [List.append_nil]
  unfold Utf16.encodeChar
  by_cases h : c.toNat < 0x10000
  · rw [if_pos h, if_neg (by omega)]
    rfl
  · rw [if_neg h, if_pos (by omega)]
    rfl

theorem size_single_ascii {c : Char} (h : c.toNat ≤ 0x7F) : size [c] = 1 ∧ units [c] = 1 := by
  refine ⟨?_, by rw [units_single, if_neg (by omega)]⟩
  rw [size_single, String.utf8EncodeChar]
  have h' : c.val.toNat ≤ 0x7F := h
  simp only [if_pos h']
  rfl

theorem size_single_wide {c : Char} (h : 0x7F < c.toNat) : 2 ≤ size [c] := by
  rw [size_single, String.utf8EncodeChar]
  have h' : ¬c.val.toNat ≤ 0x7F := Nat.not_le.2 h
  simp only [if_neg h']
  split
  · exact Nat.le_refl _
  · split
    · exact (by decide : 2 ≤ 3)
    · exact (by decide : 2 ≤ 4)

theorem size_pos (c : Char) : 0 < size [c] := by
  rcases Nat.lt_or_ge 0x7F c.toNat with h | h
  · exact Nat.lt_of_lt_of_le (by decide) (size_single_wide h)
  · rw [(size_single_ascii h).1]
    decide

/-- A text of ASCII has as many units as bytes. -/
theorem units_ascii {text : List Char} (h : ∀ c ∈ text, c.toNat ≤ 0x7F) : units text = size text := by
  induction text with
  | nil => rfl
  | cons c text ih =>
    obtain ⟨hc, htext⟩ := List.forall_mem_cons.1 h
    rw [units_cons, size_cons, ih htext, (size_single_ascii hc).1, (size_single_ascii hc).2]

theorem units_le_size (text : List Char) : units text ≤ size text := by
  induction text with
  | nil => exact Nat.le_refl _
  | cons c text ih =>
    have hc : units [c] ≤ size [c] := by
      rcases Nat.lt_or_ge 0x7F c.toNat with h | h
      · have := size_single_wide h
        rw [units_single]
        split <;> omega
      · exact Nat.le_of_eq ((size_single_ascii h).2.trans (size_single_ascii h).1.symm)
    rw [units_cons, size_cons]
    omega

theorem units_pos {text : List Char} (h : text ≠ []) : 0 < units text := by
  obtain ⟨c, text, rfl⟩ := List.exists_cons_of_ne_nil h
  rw [units_cons, units_single]
  split <;> omega

/-! ### One character more -/

theorem head?_append_single (text : List Char) (c : Char) (next : Option Char) :
    (text ++ [c]).head?.or next = text.head?.or (some c) := by
  cases text <;> rfl

theorem terminators_concat (text : List Char) (c : Char) (next : Option Char) :
    terminators (text ++ [c]) next = terminators text (some c) + if endsLine c next then 1 else 0 := by
  induction text with
  | nil => rw [List.nil_append, terminators, terminators, terminators, Nat.add_comm]; rfl
  | cons d text ih =>
    rw [List.cons_append, terminators, terminators, ih, head?_append_single, Nat.add_assoc]

theorem lastLine_concat (text : List Char) (c : Char) (next : Option Char) :
    lastLine (text ++ [c]) next = if endsLine c next then [] else lastLine text (some c) ++ [c] := by
  induction text with
  | nil =>
    have hone : terminators [c] next = if endsLine c next then 1 else 0 := terminators_concat [] c next |>.trans (Nat.zero_add _)
    show (if terminators [c] next = 0 then [c] else lastLine [] next) = _
    rw [hone]
    split <;> rfl
  | cons d text ih =>
    have hcount := terminators_concat (d :: text) c next
    rw [List.cons_append] at hcount ⊢
    rw [lastLine, ih, hcount]
    by_cases hc : endsLine c next = true
    · simp [hc]
    · by_cases hd : terminators (d :: text) (some c) = 0
      · simp [hc, hd, lastLine]
      · simp [hc, hd, lastLine]

/-- The last line is the end of the text. -/
theorem exists_lastLine (text : List Char) (next : Option Char) : ∃ front, text = front ++ lastLine text next := by
  induction text with
  | nil => exact ⟨[], rfl⟩
  | cons c text ih =>
    obtain ⟨front, hfront⟩ := ih
    rw [lastLine]
    split
    · exact ⟨[], rfl⟩
    · exact ⟨c :: front, congrArg _ hfront⟩

/-! ### Bytes at the front -/

theorem toNat_ofNat_ascii : ∀ n < 128, (Char.ofNat n).toNat = n := by decide

theorem head?_utf8 {text : List Char} {byte : UInt8} (hbyte : byte.toNat ≤ 0x7F) :
    (utf8 text).head? = some byte ↔ text.head? = some (Char.ofNat byte.toNat) := by
  cases text with
  | nil => exact ⟨fun h => (by cases h), fun h => (by cases h)⟩
  | cons c text =>
    have hlead : ((utf8 (c :: text)).head? = some byte) ↔ c.toNat = byte.toNat := by
      show ((String.utf8EncodeChar c ++ utf8 text).head? = some byte) ↔ c.val.toNat = byte.toNat
      unfold String.utf8EncodeChar
      simp only
      have hlt : c.val.toNat < 0x110000 := Utf16.toNat_lt c
      split_ifs with h1 h2 h3
      · simp only [List.cons_append, List.head?_cons, Option.some.injEq, ← UInt8.toNat_inj, UInt8.toNat_ofNat']
        omega
      · simp only [List.cons_append, List.head?_cons, Option.some.injEq, ← UInt8.toNat_inj, UInt8.toNat_ofNat']
        omega
      · simp only [List.cons_append, List.head?_cons, Option.some.injEq, ← UInt8.toNat_inj, UInt8.toNat_ofNat']
        omega
      · simp only [List.cons_append, List.head?_cons, Option.some.injEq, ← UInt8.toNat_inj, UInt8.toNat_ofNat']
        omega
    rw [hlead, List.head?_cons, Option.some.injEq]
    constructor
    · intro h
      rw [← h, Char.ofNat_toNat]
    · intro h
      rw [h]
      exact toNat_ofNat_ascii byte.toNat (by omega)

end Funbun.SourceMap
