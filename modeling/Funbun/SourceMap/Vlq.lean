import Mathlib.Data.Nat.Bitwise
import Mathlib.Tactic.Ring

/-! Variable-length quantities, the numbers of a mappings text.

A base 64 digit holds six bits. The highest says that another digit follows, the lowest of the first digit
is the sign, and the digits come lowest first. -/
namespace Funbun.SourceMap

/-- What is left of a number in an `i32`. -/
def i32 (n : Int) : Int := n.bmod UInt32.size

def Int32Range (n : Int) : Prop := -2147483648 ≤ n ∧ n ≤ 2147483647

theorem i32_of_range {n : Int} (h : Int32Range n) : i32 n = n := by
  obtain ⟨hlow, hhigh⟩ := h
  apply Int.bmod_eq_of_le
  · show -((UInt32.size : Int) / 2) ≤ n
    simp [UInt32.size]
    omega
  · show n < ((UInt32.size : Int) + 1) / 2
    simp [UInt32.size]
    omega

/-- `i32::saturating_sub` -/
def saturatingSub (a b : Int) : Int := max (-2147483648) (min (a - b) 2147483647)

theorem saturatingSub_of_range {a b : Int} (h : Int32Range (a - b)) : saturatingSub a b = a - b := by
  obtain ⟨hlow, hhigh⟩ := h
  unfold saturatingSub
  omega

namespace Vlq

def vlqMaxInBytes : Nat := 7

def base64 : List UInt8 :=
  ['A', 'B', 'C', 'D', 'E', 'F', 'G', 'H', 'I', 'J', 'K', 'L', 'M', 'N', 'O', 'P',
   'Q', 'R', 'S', 'T', 'U', 'V', 'W', 'X', 'Y', 'Z', 'a', 'b', 'c', 'd', 'e', 'f',
   'g', 'h', 'i', 'j', 'k', 'l', 'm', 'n', 'o', 'p', 'q', 'r', 's', 't', 'u', 'v',
   'w', 'x', 'y', 'z', '0', '1', '2', '3', '4', '5', '6', '7', '8', '9', '+', '/'].map Char.toUInt8

def digit (n : Nat) : UInt8 := base64.getD n 0

/-- `BASE64_LUT` -/
def lut (byte : UInt8) : Nat := if byte ∈ base64 then base64.idxOf byte else 127

/-- The digits of a number, none if it has more than the bound. -/
def encodeDigits : Nat → Nat → Option (List UInt8)
  | 0, _ => none
  | n + 1, vlq =>
    if vlq >>> 5 = 0 then some [digit (vlq &&& 31)]
    else (encodeDigits n (vlq >>> 5)).map (digit (vlq &&& 31 ||| 32) :: ·)

/-- `encode_slow_path` -/
def encodeSlowPath (value : Int) : List UInt8 :=
  let vlq := if 0 ≤ value then value.natAbs * 2 % UInt32.size else value.natAbs * 2 % UInt32.size ||| 1
  (encodeDigits vlqMaxInBytes vlq).getD []

def vlqLookupTable : List (List UInt8) := (List.range 256).map fun n : Nat => encodeSlowPath n

def encode (value : Int) : List UInt8 :=
  if 0 ≤ value ∧ value ≤ 255 then vlqLookupTable.getD value.natAbs [] else encodeSlowPath value

/-- `start` is where the rest of the text starts. -/
structure VlqResult where
  value : Int
  start : Nat
  deriving DecidableEq

def decodeDigits (start : Nat) : List UInt8 → Nat → Nat → Nat → VlqResult
  | [], _, _, _ => ⟨0, start⟩
  | byte :: encoded, i, shift, vlq =>
    let index := lut (byte &&& 0x7f)
    let vlq := vlq ||| ((index &&& 31) <<< (shift &&& 31)) % UInt32.size
    if index &&& 32 = 0 then
      ⟨if vlq &&& 1 = 0 then ↑(vlq >>> 1) else -↑(vlq >>> 1), start + i + 1⟩
    else decodeDigits start encoded (i + 1) (shift + 5) vlq

def decode (encoded : List UInt8) (start : Nat) : VlqResult :=
  decodeDigits start ((encoded.drop start).take (vlqMaxInBytes + 1)) 0 0 0

/-! ### Digits -/

theorem lut_digit : ∀ n < 64, lut (digit n &&& 0x7f) = n := by decide

variable {n : Nat} {value : Int}

theorem digit_mem (h : n < 64) : digit n ∈ base64 := by
  have hn : n < base64.length := h
  simp [digit, hn]

theorem and_31 (n : Nat) : n &&& 31 = n % 32 := Nat.and_two_pow_sub_one_eq_mod n 5

theorem shift_5 (n : Nat) : n >>> 5 = n / 32 := Nat.shiftRight_eq_div_pow n 5

theorem or_32 (h : n < 32) : n ||| 32 = n + 32 := by
  rw [Nat.or_comm, ← Nat.two_pow_add_eq_or_of_lt (i := 5) h 1]
  omega

theorem and_32_of_lt (h : n < 32) : n &&& 32 = 0 := by
  decide +revert

theorem and_32_of_add (h : n < 32) : (n + 32) &&& 32 = 32 := by
  decide +revert

/-- What the decoder makes of the bits it has read. -/
def signed (vlq : Nat) : Int := if vlq &&& 1 = 0 then ↑(vlq >>> 1) else -↑(vlq >>> 1)

theorem signed_double (n : Nat) : signed (n * 2) = n := by
  have hlow : n * 2 &&& 1 = 0 := by rw [Nat.and_one_is_mod]; omega
  have hhigh : (n * 2) >>> 1 = n := by rw [Nat.shiftRight_eq_div_pow]; omega
  simp [signed, hlow, hhigh]

theorem signed_double_or_one (n : Nat) : signed (n * 2 ||| 1) = -n := by
  have hor : n * 2 ||| 1 = n * 2 + 1 := by
    rw [Nat.or_comm, mul_comm, ← pow_one 2, Nat.or_comm, ← Nat.two_pow_add_eq_or_of_lt (i := 1) (by decide) n]
  have hlow : n * 2 + 1 &&& 1 = 1 := by rw [Nat.and_one_is_mod]; omega
  have hhigh : (n * 2 + 1) >>> 1 = n := by rw [Nat.shiftRight_eq_div_pow]; omega
  simp [signed, hor, hlow, hhigh]

theorem encodeDigits_isSome : ∀ (n vlq : Nat), vlq < 32 ^ (n + 1) → (encodeDigits (n + 1) vlq).isSome
  | 0, vlq, h => by
    have hlast : vlq >>> 5 = 0 := by rw [shift_5]; omega
    simp [encodeDigits, hlast]
  | n + 1, vlq, h => by
    unfold encodeDigits
    split
    · rfl
    · have hshift : vlq >>> 5 < 32 ^ (n + 1) := by
        rw [shift_5, Nat.div_lt_iff_lt_mul (by decide), ← pow_succ]
        exact h
      simpa using encodeDigits_isSome n _ hshift

theorem length_encodeDigits : ∀ {n vlq : Nat} {digits : List UInt8}, encodeDigits n vlq = some digits →
    digits.length ≤ n
  | n + 1, vlq, digits, h => by
    unfold encodeDigits at h
    split at h
    · obtain rfl := Option.some.inj h
      simp
    · obtain ⟨tail, htail, rfl⟩ := Option.map_eq_some_iff.1 h
      have := length_encodeDigits htail
      simpa using this

theorem encodeDigits_shape : ∀ {n vlq : Nat} {digits : List UInt8}, encodeDigits n vlq = some digits →
    digits ≠ [] ∧ ∀ byte ∈ digits, byte ∈ base64
  | n + 1, vlq, digits, h => by
    unfold encodeDigits at h
    have hmod : vlq % 32 < 32 := Nat.mod_lt _ (by decide)
    split at h
    · obtain rfl := Option.some.inj h
      simpa [and_31] using digit_mem (by omega)
    · obtain ⟨tail, htail, rfl⟩ := Option.map_eq_some_iff.1 h
      have hrest := (encodeDigits_shape htail).2
      refine ⟨by simp, ?_⟩
      simpa [and_31, or_32 hmod] using ⟨digit_mem (by omega), hrest⟩

theorem pow_next (i : Nat) : 2 ^ (5 * (i + 1)) = 32 * 2 ^ (5 * i) := by
  ring

/-- One digit more goes above the bits that are there. -/
theorem join_digit {acc d shift : Nat} (hacc : acc < 2 ^ shift) (hfits : acc + d * 2 ^ shift < UInt32.size) :
    acc ||| (d <<< shift) % UInt32.size = acc + d * 2 ^ shift := by
  rw [Nat.mod_eq_of_lt (by rw [Nat.shiftLeft_eq]; omega), Nat.or_comm, ← Nat.shiftLeft_add_eq_or_of_lt hacc,
    Nat.shiftLeft_eq, add_comm]

/-- Induction on the digits: those that were read are the accumulator's bits. -/
theorem decodeDigits_encodeDigits (start : Nat) (rest : List UInt8) :
    ∀ (n vlq i acc : Nat) (digits : List UInt8), encodeDigits n vlq = some digits → i + n ≤ 7 →
      acc < 2 ^ (5 * i) → acc + vlq * 2 ^ (5 * i) < UInt32.size →
      decodeDigits start (digits ++ rest) i (5 * i) acc =
        ⟨signed (acc + vlq * 2 ^ (5 * i)), start + i + digits.length⟩
  | n + 1, vlq, i, acc, digits, h, hi, hacc, hfits => by
    have hshift : 5 * i &&& 31 = 5 * i := by
      rw [and_31]
      omega
    have hlow : vlq % 32 * 2 ^ (5 * i) ≤ vlq * 2 ^ (5 * i) := Nat.mul_le_mul_right _ (Nat.mod_le _ _)
    have hjoin : acc ||| ((vlq % 32) <<< (5 * i)) % UInt32.size = acc + vlq % 32 * 2 ^ (5 * i) :=
      join_digit hacc (by omega)
    have hmod : vlq % 32 < 32 := Nat.mod_lt _ (by decide)
    unfold encodeDigits at h
    split at h
    · rename_i hlast
      obtain rfl := Option.some.inj h
      have hsame : vlq % 32 = vlq := by
        rw [shift_5] at hlast
        omega
      rw [hsame] at hjoin hmod
      show decodeDigits start (digit _ :: rest) i (5 * i) acc = _
      simp only [decodeDigits, and_31, hsame, lut_digit vlq (by omega), hshift, hjoin, and_32_of_lt hmod, if_true]
      rfl
    · obtain ⟨tail, htail, rfl⟩ := Option.map_eq_some_iff.1 h
      have hsplit : acc + vlq % 32 * 2 ^ (5 * i) + vlq >>> 5 * 2 ^ (5 * (i + 1)) = acc + vlq * 2 ^ (5 * i) := by
        have hdiv : vlq % 32 + 32 * (vlq / 32) = vlq := Nat.mod_add_div vlq 32
        rw [shift_5, pow_next]
        calc acc + vlq % 32 * 2 ^ (5 * i) + vlq / 32 * (32 * 2 ^ (5 * i))
            = acc + (vlq % 32 + 32 * (vlq / 32)) * 2 ^ (5 * i) := by ring
          _ = acc + vlq * 2 ^ (5 * i) := by rw [hdiv]
      have hacc' : acc + vlq % 32 * 2 ^ (5 * i) < 2 ^ (5 * (i + 1)) := by
        have hpow := pow_next i
        have : vlq % 32 * 2 ^ (5 * i) ≤ 31 * 2 ^ (5 * i) := Nat.mul_le_mul_right _ (by omega)
        omega
      have ih := decodeDigits_encodeDigits start rest n _ (i + 1) _ tail htail (by omega) hacc' (by omega)
      show decodeDigits start (digit _ :: (tail ++ rest)) i (5 * i) acc = _
      have hindex : (vlq % 32 + 32) % 32 = vlq % 32 := by omega
      simp only [decodeDigits, and_31, or_32 hmod, lut_digit (vlq % 32 + 32) (by omega), hindex, hshift, hjoin,
        and_32_of_add hmod]
      rw [if_neg (by decide)]
      rw [hsplit] at ih
      rw [show 5 * i + 5 = 5 * (i + 1) by ring, ih, List.length_cons]
      congr 1
      omega

/-! ### Round trip -/

/-- The numbers that have digits. -/
def InRange (value : Int) : Prop := value.natAbs < 2147483648

theorem encode_eq (value : Int) : encode value = encodeSlowPath value := by
  unfold encode
  split
  · rename_i h
    obtain ⟨n, rfl⟩ := Int.eq_ofNat_of_zero_le h.1
    have hn : n < 256 := by omega
    simp [vlqLookupTable, hn]
  · rfl

/-- The bits of a number, with the sign lowest -/
def bits (value : Int) : Nat := if 0 ≤ value then value.natAbs * 2 else value.natAbs * 2 ||| 1

theorem signed_bits (value : Int) : signed (bits value) = value := by
  unfold bits
  split
  · rw [signed_double]
    omega
  · rw [signed_double_or_one]
    omega

theorem encode_spec (h : InRange value) :
    ∃ digits, encode value = digits ∧ encodeDigits 7 (bits value) = some digits ∧ bits value < UInt32.size := by
  have hor : value.natAbs * 2 ||| 1 < UInt32.size :=
    Nat.or_lt_two_pow (n := 32) (by unfold InRange at h; omega) (by decide)
  have hbits : bits value < UInt32.size := by
    unfold bits InRange at *
    split
    · show _ < 4294967296
      omega
    · exact hor
  have hmod : value.natAbs * 2 % UInt32.size = value.natAbs * 2 := by
    apply Nat.mod_eq_of_lt
    show _ < 4294967296
    unfold InRange at h
    omega
  have hsome := encodeDigits_isSome 6 (bits value) (by
    show _ < 34359738368
    have : bits value < 4294967296 := hbits
    omega)
  obtain ⟨digits, hdigits⟩ := Option.isSome_iff_exists.1 hsome
  refine ⟨digits, ?_, hdigits, hbits⟩
  rw [encode_eq, encodeSlowPath]
  simp only [hmod]
  show (encodeDigits 7 (bits value)).getD [] = digits
  rw [hdigits]
  rfl

theorem encode_shape (h : InRange value) :
    encode value ≠ [] ∧ ∀ byte ∈ encode value, byte ∈ base64 := by
  obtain ⟨digits, heq, hdigits, -⟩ := encode_spec h
  rw [heq]
  exact encodeDigits_shape hdigits

/-- A number that was written is read back, wherever it stands. -/
theorem decode_encode (h : InRange value) (before rest : List UInt8) :
    decode (before ++ encode value ++ rest) before.length = ⟨value, before.length + (encode value).length⟩ := by
  obtain ⟨digits, heq, hdigits, hfits⟩ := encode_spec h
  have hlen : digits.length ≤ 7 := length_encodeDigits hdigits
  rw [decode, List.append_assoc, List.drop_left, heq, List.take_append, List.take_of_length_le (by
    show _ ≤ 8
    omega)]
  have := decodeDigits_encodeDigits before.length (rest.take (8 - digits.length)) 7 (bits value) 0 0 digits hdigits
    (by decide) (by decide) (by simpa using hfits)
  simpa [signed_bits, vlqMaxInBytes] using this

end Vlq
end Funbun.SourceMap
