import Mathlib.Data.List.Induction

/-! Texts in UTF-16 and in UTF-8.

A character outside the first plane is a pair of surrogates, a lead and a trail. A sequence of units is well formed if
it is the encoding of a text. -/
namespace Funbun.Library

/-- The bytes of a text in UTF-8 -/
def utf8 (text : List Char) : List UInt8 := text.flatMap String.utf8EncodeChar

namespace Utf16

def isLead (u : UInt16) : Bool := 0xD800 ≤ u.toNat && u.toNat < 0xDC00

def isTrail (u : UInt16) : Bool := 0xDC00 ≤ u.toNat && u.toNat < 0xE000

/-- The character that a pair of surrogates stands for -/
def pair (lead trail : UInt16) : Nat := 0x10000 + (lead.toNat - 0xD800) * 0x400 + (trail.toNat - 0xDC00)

def encodeChar (c : Char) : List UInt16 :=
  if c.toNat < 0x10000 then [UInt16.ofNat c.toNat]
  else [UInt16.ofNat (0xD800 + (c.toNat - 0x10000) / 0x400), UInt16.ofNat (0xDC00 + (c.toNat - 0x10000) % 0x400)]

/-- The units of a text -/
def encode (text : List Char) : List UInt16 := text.flatMap encodeChar

/-- The text of the units, unless a surrogate stands alone -/
def decode : List UInt16 → Option (List Char)
  | [] => some []
  | [u] => if isLead u || isTrail u then none else some [Char.ofNat u.toNat]
  | u :: v :: rest =>
    if isLead u then
      if isTrail v then (decode rest).map (Char.ofNat (pair u v) :: ·) else none
    else if isTrail u then none
    else (decode (v :: rest)).map (Char.ofNat u.toNat :: ·)

theorem toNat_lt (c : Char) : c.toNat < 0x110000 := by
  rcases c.valid with h | h
  · exact Nat.lt_trans h (by decide)
  · exact h.2

/-- No character is a surrogate. -/
theorem toNat_range (c : Char) : c.toNat < 0xD800 ∨ 0xE000 ≤ c.toNat := by
  rcases c.valid with h | h
  · exact .inl h
  · exact .inr (Nat.succ_le_of_lt h.1)

theorem encodeChar_of_lt {c : Char} (h : c.toNat < 0x10000) :
    encodeChar c = [UInt16.ofNat c.toNat] ∧ (UInt16.ofNat c.toNat).toNat = c.toNat ∧
      isLead (UInt16.ofNat c.toNat) = false ∧ isTrail (UInt16.ofNat c.toNat) = false := by
  have hrange := toNat_range c
  have htoNat : (UInt16.ofNat c.toNat).toNat = c.toNat := UInt16.toNat_ofNat_of_lt' h
  refine ⟨if_pos h, htoNat, ?_, ?_⟩
  · simp only [isLead, htoNat, Bool.and_eq_false_iff, decide_eq_false_iff_not]
    omega
  · simp only [isTrail, htoNat, Bool.and_eq_false_iff, decide_eq_false_iff_not]
    omega

theorem encodeChar_of_le {c : Char} (h : 0x10000 ≤ c.toNat) :
    ∃ lead trail, encodeChar c = [lead, trail] ∧ isLead lead = true ∧ isTrail trail = true ∧ pair lead trail = c.toNat := by
  have hlt := toNat_lt c
  have hhigh : (c.toNat - 0x10000) / 0x400 < 0x400 := by omega
  have hlow : (c.toNat - 0x10000) % 0x400 < 0x400 := Nat.mod_lt _ (by decide)
  have hlead : (UInt16.ofNat (0xD800 + (c.toNat - 0x10000) / 0x400)).toNat = 0xD800 + (c.toNat - 0x10000) / 0x400 := by
    apply UInt16.toNat_ofNat_of_lt'
    show _ < 65536
    omega
  have htrail : (UInt16.ofNat (0xDC00 + (c.toNat - 0x10000) % 0x400)).toNat = 0xDC00 + (c.toNat - 0x10000) % 0x400 := by
    apply UInt16.toNat_ofNat_of_lt'
    show _ < 65536
    omega
  refine ⟨UInt16.ofNat (0xD800 + (c.toNat - 0x10000) / 0x400), UInt16.ofNat (0xDC00 + (c.toNat - 0x10000) % 0x400), ?_,
    ?_, ?_, ?_⟩
  · unfold encodeChar
    rw [if_neg (Nat.not_lt.2 h)]
  · rw [isLead, hlead, Bool.and_eq_true, decide_eq_true_eq, decide_eq_true_eq]
    exact ⟨Nat.le_add_right _ _, Nat.add_lt_add_left hhigh _⟩
  · rw [isTrail, htrail, Bool.and_eq_true, decide_eq_true_eq, decide_eq_true_eq]
    exact ⟨Nat.le_add_right _ _, Nat.add_lt_add_left hlow _⟩
  · have hsplit : (c.toNat - 0x10000) / 0x400 * 0x400 + (c.toNat - 0x10000) % 0x400 = c.toNat - 0x10000 := by omega
    unfold pair
    rw [hlead, htrail]
    generalize (c.toNat - 0x10000) / 0x400 = high at *
    generalize (c.toNat - 0x10000) % 0x400 = low at *
    omega

theorem decode_cons {u : UInt16} (hlead : isLead u = false) (htrail : isTrail u = false) (rest : List UInt16) :
    decode (u :: rest) = (decode rest).map (Char.ofNat u.toNat :: ·) := by
  cases rest with
  | nil => simp [decode, hlead, htrail]
  | cons v rest => simp [decode, hlead, htrail]

/-- What was encoded is read as the text. -/
theorem decode_encode (text : List Char) : decode (encode text) = some text := by
  induction text with
  | nil => rfl
  | cons c text ih =>
    show decode (encodeChar c ++ encode text) = _
    rcases Nat.lt_or_ge c.toNat 0x10000 with h | h
    · obtain ⟨heq, htoNat, hlead, htrail⟩ := encodeChar_of_lt h
      rw [heq, List.singleton_append, decode_cons hlead htrail, ih, htoNat, Char.ofNat_toNat]
      rfl
    · obtain ⟨lead, trail, heq, hlead, htrail, hpair⟩ := encodeChar_of_le h
      rw [heq]
      show decode (lead :: trail :: encode text) = _
      rw [decode, if_pos hlead, if_pos htrail, ih, hpair, Char.ofNat_toNat]
      rfl

/-- No text ends in a lead. -/
theorem getLast?_encode (text : List Char) : ∀ u ∈ (encode text).getLast?, isLead u = false := by
  induction text using List.reverseRecOn with
  | nil => simp [encode]
  | append_singleton text c =>
    have happend : encode (text ++ [c]) = encode text ++ encodeChar c := by simp [encode]
    rw [happend]
    rcases Nat.lt_or_ge c.toNat 0x10000 with h | h
    · obtain ⟨heq, -, hlead, -⟩ := encodeChar_of_lt h
      rw [heq, List.getLast?_append]
      rintro u ⟨⟩
      exact hlead
    · obtain ⟨lead, trail, heq, -, htrail, -⟩ := encodeChar_of_le h
      have hlast : (encode text ++ [lead, trail]).getLast? = some trail := by simp
      rw [heq, hlast]
      rintro u ⟨⟩
      simp only [isTrail, Bool.and_eq_true, decide_eq_true_eq] at htrail
      simp only [isLead, Bool.and_eq_false_iff, decide_eq_false_iff_not]
      omega

end Utf16

end Funbun.Library
