import Funbun.Http2.Runs
import Funbun.Library.Split

/-! The header blocks that the server sends.

The bytes that come in are split into frames, whatever pieces they come in. A block is the fragment of a HEADERS frame
with the payloads of the CONTINUATION frames behind it. -/
namespace Funbun.Http2
open Library

/-! ### Frames of the bytes -/

/-- The frame at the front, if it is complete. -/
def frontFrame (bytes : List UInt8) : Option (Frame × List UInt8) :=
  match parseFrame bytes with
  | .frame frame rest => some (frame, rest)
  | _ => none

def frames (bytes : List UInt8) : List Frame := (split frontFrame bytes).1

/-- The bytes of a frame that is not complete -/
def leftover (bytes : List UInt8) : List UInt8 := (split frontFrame bytes).2

variable {bytes rest : List UInt8} {frame : Frame}

theorem frontFrame_eq_some :
    frontFrame bytes = some (frame, rest) ↔ parseFrame bytes = .frame frame rest := by
  unfold frontFrame
  cases parseFrame bytes <;> simp

theorem parseFrame_append (more : List UInt8)
    (h : parseFrame bytes = .frame frame rest) : parseFrame (bytes ++ more) = .frame frame (rest ++ more) := by
  unfold parseFrame at h
  split at h
  · rename_i l₀ l₁ l₂ type flags s₀ s₁ s₂ s₃ bytes
    simp only [List.cons_append]
    unfold parseFrame
    dsimp only at h ⊢
    split at h
    · cases h
    · rename_i hshort
      split at h
      · cases h
      · rename_i hcomplete
        have hle := Nat.not_lt.mp hcomplete
        rw [if_neg hshort, if_neg (by rw [List.length_append]; omega), List.take_append_of_le_length hle,
          List.drop_append_of_le_length hle]
        cases h
        rfl
  · cases h

theorem length_parseFrame (h : parseFrame bytes = .frame frame rest) :
    rest.length < bytes.length := by
  unfold parseFrame at h
  split at h
  · dsimp only at h
    split at h
    · cases h
    · split at h
      · cases h
      · cases h
        simp only [List.length_drop, List.length_cons]
        omega
  · cases h

theorem front_frontFrame : Front frontFrame where
  shorter h := length_parseFrame (frontFrame_eq_some.mp h)
  longer more h := frontFrame_eq_some.mpr (parseFrame_append more (frontFrame_eq_some.mp h))

/-- Pieces make the same frames as one. -/
theorem frames_append (bytes more : List UInt8) : frames (bytes ++ more) = frames bytes ++ frames (leftover bytes ++ more) :=
  congrArg Prod.fst (front_frontFrame.split_append bytes more)

theorem leftover_append (bytes more : List UInt8) : leftover (bytes ++ more) = leftover (leftover bytes ++ more) := by
  show (split frontFrame (bytes ++ more)).2 = _
  rw [front_frontFrame.split_append]
  rfl

/-! ### Frames that are written -/

/-- A frame with a number of 31 bits that is not too long -/
def Frame.Sendable (frame : Frame) : Prop := frame.streamId ≤ maxStreamId ∧ frame.length ≤ defaultMaxFrameSize

theorem parseFrame_encode (h : frame.Sendable) (more : List UInt8) :
    parseFrame (frame.encode ++ more) = .frame frame more := by
  obtain ⟨⟨type, flags, streamId, payload⟩, hid, hlength⟩ := frame, h
  dsimp only [Frame.length, maxStreamId, defaultMaxFrameSize] at hid hlength
  have hbyte : FrameType.ofByte type.toByte = type := by
    cases type with
    | other byte h => exact dif_pos h
    | _ => rfl
  have hlength' : ofBeBytes (beBytes 3 payload.length) = payload.length := ofBeBytes_beBytes (by omega)
  have hid' : ofBeBytes (beBytes 4 streamId) = streamId := ofBeBytes_beBytes (by omega)
  change (if ofBeBytes (beBytes 3 payload.length) > 16384 then Parsed.tooLong
    else if (payload ++ more).length < ofBeBytes (beBytes 3 payload.length) then .incomplete
    else .frame ⟨.ofByte type.toByte, flags, ofBeBytes (beBytes 4 streamId) % 2 ^ 31,
      (payload ++ more).take (ofBeBytes (beBytes 3 payload.length))⟩
      ((payload ++ more).drop (ofBeBytes (beBytes 3 payload.length)))) = _
  rw [hlength', hid', hbyte, if_neg (by omega), if_neg (by simp), Nat.mod_eq_of_lt (by omega), List.take_left, List.drop_left]

/-- Frames are read as they are written, and what stands behind them is read as if it came alone. -/
theorem split_encode {sent : List Frame} (h : ∀ frame ∈ sent, frame.Sendable) (more : List UInt8) :
    split frontFrame (sent.flatMap Frame.encode ++ more) = (sent ++ frames more, leftover more) := by
  induction sent with
  | nil => rfl
  | cons frame sent ih =>
    have hfront := frontFrame_eq_some.2 (parseFrame_encode (h frame List.mem_cons_self) (sent.flatMap Frame.encode ++ more))
    rw [List.flatMap_cons, List.append_assoc, front_frontFrame.split_some hfront,
      ih fun frame' h' => h frame' (List.mem_cons_of_mem frame h')]
    rfl

theorem split_encode_two : split frontFrame ([⟨.headers, 4, 1, [2]⟩, ⟨.data, 1, 1, [7]⟩].flatMap Frame.encode ++ [0]) =
    ([⟨.headers, 4, 1, [2]⟩, ⟨.data, 1, 1, [7]⟩] ++ frames [0], leftover [0]) :=
  split_encode (by simp [Frame.Sendable, Frame.length, maxStreamId, defaultMaxFrameSize]) [0]

/-! ### Blocks -/

/-- The blocks that are complete, and the one that waits for its CONTINUATION, with its stream. -/
structure Blocks where
  complete : List (List UInt8)
  opened : Option (Nat × List UInt8)

/-- What a frame adds. -/
def Blocks.add (blocks : Blocks) (frame : Frame) : Blocks :=
  match frame.type, blocks.opened with
  | .headers, none =>
    match headersFragment frame.flags frame.payload with
    | none => blocks
    | some fragment =>
      if has frame.flags Flags.endHeaders then ⟨blocks.complete ++ [fragment], none⟩
      else ⟨blocks.complete, some (frame.streamId, fragment)⟩
  | .continuation, some (id, block) =>
    if has frame.flags Flags.endHeaders then ⟨blocks.complete ++ [block ++ frame.payload], none⟩
    else ⟨blocks.complete, some (id, block ++ frame.payload)⟩
  | _, _ => blocks

namespace Blocks
variable {blocks : Blocks} {frame : Frame}

theorem add_headers (htype : frame.type = .headers) (hopened : blocks.opened = none) {fragment : List UInt8}
    (hfragment : headersFragment frame.flags frame.payload = some fragment) :
    blocks.add frame =
      if has frame.flags Flags.endHeaders then ⟨blocks.complete ++ [fragment], none⟩
      else ⟨blocks.complete, some (frame.streamId, fragment)⟩ := by
  unfold add
  rw [htype, hopened]
  dsimp only
  rw [hfragment]

theorem add_continuation (htype : frame.type = .continuation) {id : Nat} {block : List UInt8}
    (hopened : blocks.opened = some (id, block)) :
    blocks.add frame =
      if has frame.flags Flags.endHeaders then ⟨blocks.complete ++ [block ++ frame.payload], none⟩
      else ⟨blocks.complete, some (id, block ++ frame.payload)⟩ := by
  unfold add
  rw [htype, hopened]

theorem add_other (hheaders : frame.type ≠ .headers) (hcontinuation : frame.type ≠ .continuation) :
    blocks.add frame = blocks := by
  unfold add
  split
  · rename_i htype _
    exact absurd htype hheaders
  · rename_i htype _
    exact absurd htype hcontinuation
  · rfl

end Blocks

/-- The header blocks of the frames. -/
def headerBlocks (frames : List Frame) : Blocks := frames.foldl Blocks.add ⟨[], none⟩

theorem headerBlocks_concat (frames : List Frame) (frame : Frame) :
    headerBlocks (frames ++ [frame]) = (headerBlocks frames).add frame :=
  List.foldl_concat ..

end Funbun.Http2
