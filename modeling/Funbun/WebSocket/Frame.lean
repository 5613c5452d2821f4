import Funbun.Strings.Unicode
import Funbun.WebSocket.Header
import Mathlib.Data.Fin.VecNotation
import Mathlib.Data.Fintype.Basic
import Mathlib.Tactic.FinCases
import Mathlib.Tactic.NormNum

/-! Frames that a client sends.

A frame is a header, the length if it does not fit the header, four bytes of mask, and the masked payload. A server
reads it back: `decodeFrame` accepts final frames that are masked and whose length has the shortest form. -/
namespace Funbun.WebSocket
open Library Strings

abbrev Mask := Fin 4 → UInt8

namespace Mask

def zero : Mask := fun _ => 0

def bytes (mask : Mask) : List UInt8 := [mask 0, mask 1, mask 2, mask 3]

def fillWithSkipMask (mask : Mask) (input : List UInt8) (skipMask : Bool) : List UInt8 :=
  if skipMask then input else input.mapIdx fun i byte => byte ^^^ mask (Fin.ofNat 4 i)

def fill (mask : Mask) (input : List UInt8) : List UInt8 := mask.fillWithSkipMask input (mask.bytes == [0, 0, 0, 0])

end Mask

inductive Copy where
  | utf16 (text : List UInt16)
  | latin1 (text : List UInt8)
  | bytes (text : List UInt8)
  | raw (text : List UInt8)

/-- The bytes of the length behind the header -/
def lengthBytes (contentByteLen : Nat) : List UInt8 :=
  match WebsocketHeader.lengthByteCount contentByteLen with
  | 0 => []
  | 2 => beBytes 2 contentByteLen
  | _ => beBytes 8 contentByteLen

/-- The header of every frame with content -/
def contentHeader (opcode : Opcode) (len : UInt8) : WebsocketHeader :=
  ((((WebsocketHeader.fromSlice 0 0).setMask true).setCompressed false).setFinal true).setOpcode opcode |>.setLen len

/-- The header of a control frame -/
def controlHeader (opcode : Opcode) (length : Nat) : WebsocketHeader :=
  (((WebsocketHeader.fromSlice 0 0).setFinal true).setOpcode opcode).setMask true |>.setLen (UInt8.ofNat length &&& 0x7F)

namespace Copy

def contentByteLen (simd : Simdutf) : Copy → Nat
  | utf16 text => simd.utf8LengthFromUtf16le text
  | latin1 text => elementLengthLatin1IntoUtf8 simd text
  | bytes text | raw text => text.length

def len (simd : Simdutf) (c : Copy) : Nat :=
  match c with
  | raw text => text.length
  | c => WebsocketHeader.frameSizeIncludingMask (c.contentByteLen simd)

/-- What is written to the place of the content. What is left of the place keeps what it held, which is taken as zeros. -/
def encodeInto (simd : Simdutf) (room : Nat) : Copy → List UInt8
  | utf16 text => copyUtf16IntoUtf8 simd room text
  | latin1 text => (copyLatin1IntoUtf8 room text).2
  | bytes text | raw text => text

/-- The length that the header is given: what was encoded is counted in the 32 bits of an `EncodeIntoResult`. -/
def written (simd : Simdutf) (room : Nat) (c : Copy) : Nat :=
  match c with
  | utf16 _ | latin1 _ => (c.encodeInto simd room).length % UInt32.size
  | bytes text | raw text => text.length

def copy (simd : Simdutf) (mask : Mask) (c : Copy) (contentByteLen : Nat) (opcode : Opcode) : List UInt8 :=
  match c with
  | raw text => text
  | c =>
    let content := c.encodeInto simd contentByteLen
    (contentHeader opcode (WebsocketHeader.packLength (c.written simd contentByteLen))).slice ++
      lengthBytes contentByteLen ++ mask.bytes ++
      mask.fill (content ++ List.replicate (contentByteLen - content.length) 0)

end Copy

/-! ### What the server reads -/

/-- The length of the payload, and what is behind it -/
def decodeLength (len : UInt8) (bytes : List UInt8) : Option (Nat × List UInt8) :=
  if len.toNat ≤ 125 then some (len.toNat, bytes)
  else if len = 126 then
    if 2 ≤ bytes.length ∧ 126 ≤ ofBeBytes (bytes.take 2) then some (ofBeBytes (bytes.take 2), bytes.drop 2) else none
  else if 8 ≤ bytes.length ∧ 0xFFFF < ofBeBytes (bytes.take 8) ∧ ofBeBytes (bytes.take 8) < 0x8000000000000000 then
    some (ofBeBytes (bytes.take 8), bytes.drop 8)
  else none

/-- The opcode and the payload of the first frame, and what is behind it -/
def decodeFrame : List UInt8 → Option (Opcode × List UInt8 × List UInt8)
  | b₀ :: b₁ :: bytes =>
    let header := WebsocketHeader.fromSlice b₀ b₁
    if header.final && header.mask && !header.compressed && header.rsv == 0 then
      match decodeLength header.len bytes with
      | some (length, m₀ :: m₁ :: m₂ :: m₃ :: bytes) =>
        if length ≤ bytes.length then
          some (header.opcode, (bytes.take length).mapIdx fun i byte => byte ^^^ ![m₀, m₁, m₂, m₃] (Fin.ofNat 4 i),
            bytes.drop length)
        else none
      | _ => none
    else none
  | _ => none

/-! ### What is sent is read back -/

theorem headers_slice (op : Opcode) : ∀ v < 128,
    (contentHeader op (UInt8.ofNat v)).slice = [0x80 ||| UInt8.ofNat op.toNat, 0x80 ||| UInt8.ofNat v] ∧
      (controlHeader op v).slice = [0x80 ||| UInt8.ofNat op.toNat, 0x80 ||| UInt8.ofNat v] := by
  cases op <;> decide +kernel

namespace WebsocketHeader

theorem or_and (a b m : UInt16) : (a ||| b) &&& m = a &&& m ||| b &&& m :=
  UInt16.toBitVec_inj.1 BitVec.and_or_distrib_right

/-- What is in the first byte of a header -/
theorem fromSlice_first (b₀ b₁ : UInt8) :
    (fromSlice b₀ b₁).final = (b₀ >>> 7 &&& 1 != 0) ∧ (fromSlice b₀ b₁).compressed = (b₀ >>> 6 &&& 1 != 0) ∧
      (fromSlice b₀ b₁).rsv = b₀ >>> 4 &&& 3 ∧ (fromSlice b₀ b₁).opcode = .fromRaw b₀ := by
  have hlow : ∀ n < 256, (UInt8.ofNat n).toUInt16 >>> 8 = 0 ∧ (UInt8.ofNat n).toUInt16 >>> 12 = 0 ∧
      (UInt8.ofNat n).toUInt16 >>> 14 = 0 ∧ (UInt8.ofNat n).toUInt16 >>> 15 = 0 := by decide +kernel
  have hhigh : ∀ n < 256, let high := (UInt8.ofNat n).toUInt16 <<< 8
      (high >>> 15 &&& 1 != 0) = (UInt8.ofNat n >>> 7 &&& 1 != 0) ∧
        (high >>> 14 &&& 1 != 0) = (UInt8.ofNat n >>> 6 &&& 1 != 0) ∧
        (high >>> 12 &&& rsvMask).toUInt8 = UInt8.ofNat n >>> 4 &&& 3 ∧
        Opcode.fromRaw (high >>> 8 &&& opcodeMask).toUInt8 = .fromRaw (UInt8.ofNat n) := by decide +kernel
  have hsecond := hlow b₁.toNat b₁.toNat_lt
  have hfirst := hhigh b₀.toNat b₀.toNat_lt
  rw [UInt8.ofNat_toNat] at hsecond hfirst
  obtain ⟨h8, h12, h14, h15⟩ := hsecond
  unfold final compressed rsv opcode fromSlice
  simp only [UInt16.shiftRight_or, h8, h12, h14, h15, UInt16.or_zero]
  exact hfirst

/-- What is in the second byte -/
theorem fromSlice_second (b₀ b₁ : UInt8) :
    (fromSlice b₀ b₁).mask = (b₁ >>> 7 &&& 1 != 0) ∧ (fromSlice b₀ b₁).len = b₁ &&& 0x7F := by
  have hhigh : ∀ n < 256, (UInt8.ofNat n).toUInt16 <<< 8 >>> 7 &&& 1 = 0 ∧
      (UInt8.ofNat n).toUInt16 <<< 8 &&& lenMask = 0 := by decide +kernel
  have hlow : ∀ n < 256, ((UInt8.ofNat n).toUInt16 >>> 7 &&& 1 != 0) = (UInt8.ofNat n >>> 7 &&& 1 != 0) ∧
      ((UInt8.ofNat n).toUInt16 &&& lenMask).toUInt8 = UInt8.ofNat n &&& 0x7F := by decide +kernel
  have hsecond := hlow b₁.toNat b₁.toNat_lt
  have hfirst := hhigh b₀.toNat b₀.toNat_lt
  rw [UInt8.ofNat_toNat] at hsecond hfirst
  unfold mask len fromSlice
  simp only [UInt16.shiftRight_or, or_and, hfirst.1, hfirst.2, UInt16.zero_or]
  exact hsecond

end WebsocketHeader

/-- The header of a final frame that is masked -/
theorem fromSlice_fields (op : Opcode) (v : Nat) (hv : v < 128) :
    let h := WebsocketHeader.fromSlice (0x80 ||| UInt8.ofNat op.toNat) (0x80 ||| UInt8.ofNat v)
    h.final = true ∧ h.mask = true ∧ h.compressed = false ∧ h.rsv = 0 ∧ h.opcode = op ∧ h.len = UInt8.ofNat v := by
  have hlow : ∀ v < 128, ((0x80 ||| UInt8.ofNat v) >>> 7 &&& 1 != 0) = true ∧
      (0x80 ||| UInt8.ofNat v) &&& 0x7F = UInt8.ofNat v := by decide +kernel
  obtain ⟨hfinal, hcompressed, hrsv, hopcode⟩ :=
    WebsocketHeader.fromSlice_first (0x80 ||| UInt8.ofNat op.toNat) (0x80 ||| UInt8.ofNat v)
  obtain ⟨hmask, hlen⟩ := WebsocketHeader.fromSlice_second (0x80 ||| UInt8.ofNat op.toNat) (0x80 ||| UInt8.ofNat v)
  refine ⟨hfinal.trans ?_, hmask.trans (hlow v hv).1, hcompressed.trans ?_, hrsv.trans ?_, hopcode.trans ?_,
    hlen.trans (hlow v hv).2⟩ <;> cases op <;> decide

theorem packLength_lt (n : Nat) : ∃ v < 128, WebsocketHeader.packLength n = UInt8.ofNat v := by
  unfold WebsocketHeader.packLength
  split
  · exact ⟨n, by omega, rfl⟩
  · split
    · exact ⟨126, by decide, rfl⟩
    · exact ⟨127, by decide, rfl⟩

variable {n : Nat} {payload : List UInt8}

theorem lengthBytes_short (h : n ≤ 125) : lengthBytes n = [] ∧ WebsocketHeader.packLength n = UInt8.ofNat n := by
  refine ⟨?_, if_pos h⟩
  unfold lengthBytes WebsocketHeader.lengthByteCount
  rw [if_pos h]
  rfl

theorem lengthBytes_middle (hshort : ¬n ≤ 125) (h : n ≤ 0xFFFF) :
    lengthBytes n = beBytes 2 n ∧ WebsocketHeader.packLength n = 126 := by
  refine ⟨?_, (if_neg hshort).trans (if_pos h)⟩
  unfold lengthBytes WebsocketHeader.lengthByteCount
  rw [if_neg hshort, if_pos h]
  rfl

theorem lengthBytes_long (hshort : ¬n ≤ 125) (hmiddle : ¬n ≤ 0xFFFF) :
    lengthBytes n = beBytes 8 n ∧ WebsocketHeader.packLength n = 127 := by
  refine ⟨?_, (if_neg hshort).trans (if_neg hmiddle)⟩
  unfold lengthBytes WebsocketHeader.lengthByteCount
  rw [if_neg hshort, if_neg hmiddle]
  rfl

theorem decodeLength_lengthBytes (h : n < 0x8000000000000000) (rest : List UInt8) :
    decodeLength (WebsocketHeader.packLength n) (lengthBytes n ++ rest) = some (n, rest) := by
  by_cases hshort : n ≤ 125
  · obtain ⟨hbytes, hpack⟩ := lengthBytes_short hshort
    have htoNat : (UInt8.ofNat n).toNat = n := UInt8.toNat_ofNat_of_lt' (Nat.lt_of_le_of_lt hshort (by decide))
    unfold decodeLength
    rw [hpack, hbytes, htoNat, if_pos hshort, List.nil_append]
  · by_cases hmiddle : n ≤ 0xFFFF
    · obtain ⟨hbytes, hpack⟩ := lengthBytes_middle hshort hmiddle
      have hread : ofBeBytes (beBytes 2 n) = n := ofBeBytes_beBytes (by norm_num; omega)
      have htake : (beBytes 2 n ++ rest).take 2 = beBytes 2 n := List.take_left' (length_beBytes 2 n)
      have hdrop : (beBytes 2 n ++ rest).drop 2 = rest := List.drop_left' (length_beBytes 2 n)
      unfold decodeLength
      rw [hpack, hbytes, if_neg (by decide), if_pos rfl, htake, hdrop, hread, List.length_append, length_beBytes,
        if_pos ⟨by omega, by omega⟩]
    · obtain ⟨hbytes, hpack⟩ := lengthBytes_long hshort hmiddle
      have hread : ofBeBytes (beBytes 8 n) = n := ofBeBytes_beBytes (by norm_num; omega)
      have htake : (beBytes 8 n ++ rest).take 8 = beBytes 8 n := List.take_left' (length_beBytes 8 n)
      have hdrop : (beBytes 8 n ++ rest).drop 8 = rest := List.drop_left' (length_beBytes 8 n)
      unfold decodeLength
      rw [hpack, hbytes, if_neg (by decide), if_neg (by decide), htake, hdrop, hread, List.length_append, length_beBytes,
        if_pos ⟨by omega, by omega, h⟩]

namespace Mask

/-- A mask of zeros that is skipped is a mask like any other. -/
theorem fill_eq (mask : Mask) (input : List UInt8) :
    mask.fill input = input.mapIdx fun i byte => byte ^^^ mask (Fin.ofNat 4 i) := by
  unfold fill fillWithSkipMask
  split
  · rename_i hzero
    have hmask : mask = zero := by
      have hbytes : [mask 0, mask 1, mask 2, mask 3] = [0, 0, 0, 0] := by simpa [bytes] using hzero
      injection hbytes with h₀ hbytes
      injection hbytes with h₁ hbytes
      injection hbytes with h₂ hbytes
      injection hbytes with h₃ hbytes
      funext i
      fin_cases i <;> assumption
    rw [hmask]
    apply List.ext_getElem?
    intro i
    simp [zero]
  · rfl

/-- To mask twice is not to mask. -/
theorem xor_fill (mask : Mask) (input : List UInt8) :
    (mask.fill input).mapIdx (fun i byte => byte ^^^ mask (Fin.ofNat 4 i)) = input := by
  have hxor : ∀ byte key : UInt8, byte ^^^ key ^^^ key = byte := by
    intro byte key
    rw [UInt8.xor_assoc, UInt8.xor_self, UInt8.xor_zero]
  rw [fill_eq, List.mapIdx_mapIdx]
  simp [List.mapIdx_eq_iff, Function.comp_def, hxor]

@[simp] theorem length_fill (mask : Mask) (input : List UInt8) : (mask.fill input).length = input.length := by
  rw [fill_eq, List.length_mapIdx]

end Mask

/-- A client frame as the format has it -/
def frame (mask : Mask) (opcode : Opcode) (payload : List UInt8) : List UInt8 :=
  (contentHeader opcode (WebsocketHeader.packLength payload.length)).slice ++ lengthBytes payload.length ++ mask.bytes ++ mask.fill payload

theorem decodeFrame_frame (mask : Mask) (opcode : Opcode) (h : payload.length < 0x8000000000000000) (rest : List UInt8) :
    decodeFrame (frame mask opcode payload ++ rest) = some (opcode, payload, rest) := by
  obtain ⟨v, hv, hpack⟩ := packLength_lt payload.length
  have hslice := (headers_slice opcode v hv).1
  obtain ⟨hfinal, hmask, hcompressed, hrsv, hopcode, hlen⟩ := fromSlice_fields opcode v hv
  have hlength := decodeLength_lengthBytes h (mask.bytes ++ (mask.fill payload ++ rest))
  have hbytes : frame mask opcode payload ++ rest =
      (0x80 ||| UInt8.ofNat opcode.toNat) :: (0x80 ||| UInt8.ofNat v) ::
        (lengthBytes payload.length ++ (mask.bytes ++ (mask.fill payload ++ rest))) := by
    rw [frame, hpack, hslice]
    simp
  rw [hpack] at hlength
  have hmasks : ![mask 0, mask 1, mask 2, mask 3] = mask := by
    funext i
    fin_cases i <;> rfl
  have htake : (mask.fill payload ++ rest).take payload.length = mask.fill payload := List.take_left' (mask.length_fill _)
  have hdrop : (mask.fill payload ++ rest).drop payload.length = rest := List.drop_left' (mask.length_fill _)
  rw [hbytes]
  unfold decodeFrame
  simp only [hfinal, hmask, hcompressed, hrsv, hlen, hlength]
  show (if payload.length ≤ (mask.fill payload ++ rest).length then
    some (_, ((mask.fill payload ++ rest).take payload.length).mapIdx
      (fun i byte => byte ^^^ ![mask 0, mask 1, mask 2, mask 3] (Fin.ofNat 4 i)),
      (mask.fill payload ++ rest).drop payload.length) else none) = _
  rw [List.length_append, Mask.length_fill, if_pos (Nat.le_add_right _ _), hmasks, htake, hdrop, Mask.xor_fill, hopcode]

/-- The payload of what is copied -/
inductive Copy.Has (simd : Simdutf) : Copy → List UInt8 → Prop
  | bytes (text : List UInt8) : Has simd (.bytes text) text
  | latin1 (text : List UInt8) : Has simd (.latin1 text) (utf8 (latin1Text text))
  | utf16 (text : List Char) : Has simd (.utf16 (Utf16.encode text)) (utf8 text)

/-- A length that the header shows rightly in 32 bits -/
def Packed (n : Nat) : Prop := n ≤ 0xFFFF ∨ 0xFFFF < n % UInt32.size

theorem packLength_mod (h : Packed n) :
    WebsocketHeader.packLength (n % UInt32.size) = WebsocketHeader.packLength n := by
  rcases h with hshort | hlong
  · rw [Nat.mod_eq_of_lt (Nat.lt_of_le_of_lt hshort (by decide))]
  · have hmod : n % UInt32.size ≤ n := Nat.mod_le n UInt32.size
    unfold WebsocketHeader.packLength
    rw [if_neg (by omega), if_neg (by omega), if_neg (by omega), if_neg (by omega)]

/-- What is copied is a frame with its payload, if the length of a text is packed. -/
theorem Copy.Has.copy_eq {simd : Simdutf} (hsimd : simd.Documented) {c : Copy} (h : c.Has simd payload)
    (hpacked : c = .bytes payload ∨ Packed payload.length) (mask : Mask) (opcode : Opcode) :
    c.copy simd mask (c.contentByteLen simd) opcode = frame mask opcode payload := by
  have hspec : c.contentByteLen simd = payload.length ∧ c.encodeInto simd payload.length = payload := by
    cases h with
    | bytes text => exact ⟨rfl, rfl⟩
    | latin1 text => exact ⟨elementLengthLatin1IntoUtf8_eq hsimd text, congrArg Prod.snd (copyLatin1IntoUtf8_exact (Nat.le_refl _))⟩
    | utf16 text => exact ⟨hsimd.utf8LengthFromUtf16le text, copyUtf16IntoUtf8_exact hsimd text⟩
  have hpack : WebsocketHeader.packLength (c.written simd payload.length) = WebsocketHeader.packLength payload.length := by
    cases h with
    | bytes text => rfl
    | latin1 | utf16 =>
      unfold Copy.written
      rw [hspec.2]
      exact packLength_mod (hpacked.resolve_left nofun)
  have hcopy : c.copy simd mask payload.length opcode =
      frame mask opcode (c.encodeInto simd payload.length ++
        List.replicate (payload.length - (c.encodeInto simd payload.length).length) 0) := by
    rw [hspec.2, Nat.sub_self, List.replicate_zero, List.append_nil]
    unfold Copy.copy frame
    cases h <;> simp only [hspec.2, hpack, Nat.sub_self, List.replicate_zero, List.append_nil]
  rw [hspec.1, hcopy, hspec.2, Nat.sub_self]
  exact congrArg _ (List.append_nil _)

/-- A control frame, whose header is built in another order, is a frame too. -/
theorem frame_control (mask : Mask) (opcode : Opcode) (h : payload.length ≤ 125) :
    (controlHeader opcode payload.length).slice ++ mask.bytes ++ mask.fill payload = frame mask opcode payload := by
  obtain ⟨hbytes, hpack⟩ := lengthBytes_short h
  obtain ⟨hcontent, hcontrol⟩ := headers_slice opcode payload.length (by omega)
  rw [frame, hpack, hbytes, hcontent, hcontrol, List.append_nil]

end Funbun.WebSocket
