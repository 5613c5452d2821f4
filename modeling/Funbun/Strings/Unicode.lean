import Funbun.Library.Utf16

/-! Conversions to UTF-8.

The texts of JavaScript are Latin-1 or UTF-16. simdutf, which is not part of the program, does most of the work: what
it documents for valid input is a hypothesis. -/
namespace Funbun.Strings
open Library

/-- The functions of simdutf that are called -/
structure Simdutf where
  utf8LengthFromUtf16le : List UInt16 → Nat
  utf8LengthFromLatin1 : List UInt8 → Nat
  /-- None where a surrogate stands alone -/
  convertUtf16leToUtf8 : List UInt16 → Option (List UInt8)
  validateUtf8 : List UInt8 → Bool

/-- The text of bytes in Latin-1 -/
def latin1Text (latin1 : List UInt8) : List Char := latin1.map fun c => Char.ofNat c.toNat

/-- What is documented for text that is valid. -/
structure Simdutf.Documented (simd : Simdutf) : Prop where
  utf8LengthFromUtf16le : ∀ text, simd.utf8LengthFromUtf16le (Utf16.encode text) = (utf8 text).length
  utf8LengthFromLatin1 : ∀ latin1, simd.utf8LengthFromLatin1 latin1 = (utf8 (latin1Text latin1)).length
  convertUtf16leToUtf8 : ∀ text, simd.convertUtf16leToUtf8 (Utf16.encode text) = some (utf8 text)
  validateUtf8 : ∀ text, simd.validateUtf8 (utf8 text) = true

/-- The functions as they are documented -/
def Simdutf.reference : Simdutf where
  utf8LengthFromUtf16le units := ((Utf16.decode units).map fun text => (utf8 text).length).getD 0
  utf8LengthFromLatin1 latin1 := (utf8 (latin1Text latin1)).length
  convertUtf16leToUtf8 units := (Utf16.decode units).map utf8
  validateUtf8 bytes := bytes.toByteArray.validateUTF8

theorem Simdutf.reference_documented : Simdutf.reference.Documented where
  utf8LengthFromUtf16le text := by
    show ((Utf16.decode (Utf16.encode text)).map fun text => (Library.utf8 text).length).getD 0 = _
    rw [Utf16.decode_encode]
    rfl
  utf8LengthFromLatin1 _ := rfl
  convertUtf16leToUtf8 text := by
    show (Utf16.decode (Utf16.encode text)).map Library.utf8 = _
    rw [Utf16.decode_encode]
    rfl
  validateUtf8 _ := ByteArray.validateUTF8_eq_true_iff.2 ByteArray.isValidUTF8_utf8Encode

/-- `latin1_to_codepoint_bytes_assume_not_ascii` -/
def latin1ToCodepointBytes (c : UInt8) : List UInt8 := [(0xC0 : UInt8) ||| c >>> 6, (0x80 : UInt8) ||| c &&& 0x3F]

def elementLengthLatin1IntoUtf8 (simd : Simdutf) (latin1 : List UInt8) : Nat :=
  if latin1.length ≤ 32 then latin1.length + (latin1.filter fun c => 0x80 ≤ c).length
  else simd.utf8LengthFromLatin1 latin1

/-- How much was read, and what was written -/
def copyLatin1IntoUtf8 : Nat → List UInt8 → Nat × List UInt8
  | _, [] => (0, [])
  | room, c :: latin1 =>
    let bytes := if 0x80 ≤ c then latin1ToCodepointBytes c else [c]
    if room < bytes.length then (0, [])
    else ((copyLatin1IntoUtf8 (room - bytes.length) latin1).1 + 1, bytes ++ (copyLatin1IntoUtf8 (room - bytes.length) latin1).2)

def encodeWtf8Rune (cp : Nat) : List UInt8 :=
  if cp < 0x80 then [UInt8.ofNat cp]
  else if cp < 0x800 then [(0xC0 : UInt8) ||| UInt8.ofNat (cp >>> 6), (0x80 : UInt8) ||| UInt8.ofNat (cp &&& 0x3F)]
  else if cp < 0x10000 then
    [(0xE0 : UInt8) ||| UInt8.ofNat (cp >>> 12), (0x80 : UInt8) ||| UInt8.ofNat (cp >>> 6 &&& 0x3F),
      (0x80 : UInt8) ||| UInt8.ofNat (cp &&& 0x3F)]
  else
    [(0xF0 : UInt8) ||| UInt8.ofNat (cp >>> 18), (0x80 : UInt8) ||| UInt8.ofNat (cp >>> 12 &&& 0x3F),
      (0x80 : UInt8) ||| UInt8.ofNat (cp >>> 6 &&& 0x3F), (0x80 : UInt8) ||| UInt8.ofNat (cp &&& 0x3F)]

/-- The code points, with `lone` for a surrogate that stands alone -/
def codePoints (lone : UInt16 → Nat) : List UInt16 → List Nat
  | [] => []
  | [u] => [if Utf16.isLead u || Utf16.isTrail u then lone u else u.toNat]
  | u :: v :: rest =>
    if Utf16.isLead u && Utf16.isTrail v then Utf16.pair u v :: codePoints lone rest
    else (if Utf16.isLead u || Utf16.isTrail u then lone u else u.toNat) :: codePoints lone (v :: rest)

/-- `copy_utf16_into_utf8_with_buffer_impl`, for a buffer of `room` bytes. Without simdutf the last sequence is cut off
where the buffer ends. -/
def copyUtf16IntoUtf8WithBuffer (simd : Simdutf) (room : Nat) (utf16 : List UInt16) (outLen : Nat) : List UInt8 :=
  let scalar := (((codePoints fun _ => 0xFFFD) utf16).flatMap encodeWtf8Rune).take room
  if outLen ≤ room then (simd.convertUtf16leToUtf8 utf16).getD scalar else scalar

/-- A lead surrogate at the end is left out. -/
def trim (utf16 : List UInt16) : List UInt16 :=
  match utf16.getLast? with
  | some u => if Utf16.isLead u then utf16.dropLast else utf16
  | none => []

def copyUtf16IntoUtf8 (simd : Simdutf) (room : Nat) (utf16 : List UInt16) : List UInt8 :=
  if utf16 = [] then []
  else if trim utf16 = [] then []
  else
    copyUtf16IntoUtf8WithBuffer simd room utf16
      (if room ≤ (trim utf16).length * 3 + 2 then simd.utf8LengthFromUtf16le (trim utf16) else room)

def toUtf8Alloc (simd : Simdutf) (utf16 : List UInt16) : List UInt8 :=
  (simd.convertUtf16leToUtf8 utf16).getD ((codePoints UInt16.toNat utf16).flatMap encodeWtf8Rune)

/-- A string in one of its three encodings -/
inductive ZigString where
  | latin1 (slice : List UInt8)
  | utf8 (slice : List UInt8)
  | utf16 (slice : List UInt16)
  deriving DecidableEq

/-- The string has the text. Surrogates are pairs: the bindings replace those that stand alone. -/
inductive ZigString.Has : ZigString → List Char → Prop
  | latin1 (slice : List UInt8) : Has (.latin1 slice) (latin1Text slice)
  | utf8 (text : List Char) : Has (.utf8 (Library.utf8 text)) text
  | utf16 (text : List Char) : Has (.utf16 (Utf16.encode text)) text

/-! ### Every text is converted whole -/

theorem utf8EncodeChar_latin1 : ∀ n < 256,
    String.utf8EncodeChar (Char.ofNat n) =
      if 0x80 ≤ UInt8.ofNat n then latin1ToCodepointBytes (UInt8.ofNat n) else [UInt8.ofNat n] := by
  decide +kernel

theorem utf8_latin1_cons (c : UInt8) (latin1 : List UInt8) :
    utf8 (latin1Text (c :: latin1)) =
      (if 0x80 ≤ c then latin1ToCodepointBytes c else [c]) ++ utf8 (latin1Text latin1) := by
  have h := utf8EncodeChar_latin1 c.toNat c.toNat_lt
  rw [UInt8.ofNat_toNat] at h
  exact congrArg (· ++ utf8 (latin1Text latin1)) h

theorem length_utf8_latin1 (latin1 : List UInt8) :
    (utf8 (latin1Text latin1)).length = latin1.length + (latin1.filter fun c => 0x80 ≤ c).length := by
  induction latin1 with
  | nil => rfl
  | cons c latin1 ih =>
    rw [utf8_latin1_cons, List.length_append, ih, List.length_cons]
    by_cases h : 0x80 ≤ c
    · rw [if_pos h, List.filter_cons_of_pos (by simpa using h)]
      simp only [latin1ToCodepointBytes, List.length_cons, List.length_nil]
      omega
    · rw [if_neg h, List.filter_cons_of_neg (by simpa using h)]
      simp only [List.length_cons, List.length_nil]
      omega

theorem copyLatin1IntoUtf8_exact {room : Nat} {latin1 : List UInt8} (h : (utf8 (latin1Text latin1)).length ≤ room) :
    copyLatin1IntoUtf8 room latin1 = (latin1.length, utf8 (latin1Text latin1)) := by
  induction latin1 generalizing room with
  | nil => rfl
  | cons c latin1 ih =>
    rw [utf8_latin1_cons] at h ⊢
    generalize hbytes : (if 0x80 ≤ c then latin1ToCodepointBytes c else [c]) = bytes at *
    rw [List.length_append] at h
    unfold copyLatin1IntoUtf8
    simp only [hbytes]
    rw [if_neg (by omega), ih (by omega)]
    rfl

variable {simd : Simdutf} (hsimd : simd.Documented)
include hsimd

theorem elementLengthLatin1IntoUtf8_eq (latin1 : List UInt8) :
    elementLengthLatin1IntoUtf8 simd latin1 = (utf8 (latin1Text latin1)).length := by
  unfold elementLengthLatin1IntoUtf8
  split
  · exact (length_utf8_latin1 latin1).symm
  · exact hsimd.utf8LengthFromLatin1 latin1

omit hsimd in
theorem trim_encode (text : List Char) : trim (Utf16.encode text) = Utf16.encode text := by
  have hlast := Utf16.getLast?_encode text
  unfold trim
  split
  · rename_i u hu
    rw [hlast u hu]
    rfl
  · rename_i hnone
    exact (List.getLast?_eq_none_iff.1 hnone).symm

omit hsimd in
theorem encode_eq_nil {text : List Char} (h : Utf16.encode text = []) : utf8 text = [] := by
  have htext := Utf16.decode_encode text
  rw [h] at htext
  cases htext
  rfl

theorem copyUtf16IntoUtf8_exact (text : List Char) :
    copyUtf16IntoUtf8 simd (utf8 text).length (Utf16.encode text) = utf8 text := by
  unfold copyUtf16IntoUtf8
  rw [trim_encode]
  by_cases hnil : Utf16.encode text = []
  · rw [if_pos hnil, encode_eq_nil hnil]
  · rw [if_neg hnil, if_neg hnil, hsimd.utf8LengthFromUtf16le, ite_self]
    unfold copyUtf16IntoUtf8WithBuffer
    rw [if_pos (Nat.le_refl _), hsimd.convertUtf16leToUtf8]
    rfl

theorem toUtf8Alloc_encode (text : List Char) : toUtf8Alloc simd (Utf16.encode text) = utf8 text := by
  unfold toUtf8Alloc
  rw [hsimd.convertUtf16leToUtf8]
  rfl

end Funbun.Strings
