import Funbun.WebSocket.Receive
import Mathlib.Tactic.SplitIfs

/-! What a client makes of its input does not depend on the segments, but for one kind of cut.

The loop reads elements: headers, lengths, pieces of bodies, control frames. Where the segment ends inside an element, the
turn of the loop is made again with what came, and does what it would have done with all of it (`turn_with`). The number
of the bytes of a close frame that were copied is kept where its length was. Below two it is taken for a length. -/
namespace Funbun.WebSocket
open Library Strings
variable {σ : Type} {codec : Codec σ}

/-! ### What a turn leaves alone -/

/-- What no dispatch changes -/
structure Connection.Keeps (c c' : Connection σ) : Prop where
  final : c'.receivingIsFinal = c.receivingIsFinal
  pending : c.receivePendingChunkLen = 0 → c'.receivePendingChunkLen = 0
  received : c'.closeReceived = c.closeReceived
  buffering : c'.closeFrameBuffering = true → c.closeFrameBuffering = true

namespace Connection

theorem Keeps.same {c : Connection σ} : c.Keeps c := ⟨rfl, id, rfl, id⟩

theorem Keeps.trans {c c' c'' : Connection σ} (h : c.Keeps c') (h' : c'.Keeps c'') : c.Keeps c'' :=
  ⟨h'.final.trans h.final, fun hp => h'.pending (h.pending hp), h'.received.trans h.received,
    fun hb => h.buffering (h'.buffering hb)⟩

theorem keeps_clearData (c : Connection σ) : c.Keeps c.clearData :=
  ⟨rfl, fun _ => rfl, rfl, fun h => by cases h⟩

theorem keeps_dispatchLast (c : Connection σ) (event : Event) : c.Keeps (c.dispatchLast event) := by
  unfold dispatchLast
  split
  · exact ⟨rfl, id, rfl, id⟩
  · exact .same

theorem keeps_cancel (c : Connection σ) : c.Keeps c.cancel := by
  have hclosed : c.Keeps {c.clearData with tcp.isClosed := true} :=
    ⟨rfl, fun _ => rfl, rfl, fun h => by cases h⟩
  unfold cancel
  split
  · exact hclosed.trans (keeps_dispatchLast _ _)
  · exact hclosed

theorem keeps_terminate (c : Connection σ) (code : ErrorCode) : c.Keeps (c.terminate code) :=
  (keeps_dispatchLast c _).trans (keeps_cancel _)

theorem keeps_sendPong (c : Connection σ) : c.Keeps c.sendPong := by
  unfold sendPong
  split
  · exact keeps_dispatchLast c _
  · exact ⟨rfl, id, rfl, id⟩

theorem keeps_dispatchData (codec : Codec σ) (c : Connection σ) (data : List UInt8) (kind : Opcode) :
    c.Keeps (c.dispatchData codec data kind) := by
  unfold dispatchData
  split
  · exact keeps_clearData c
  · split
    · split
      · exact ⟨rfl, id, rfl, id⟩
      · exact keeps_terminate c _
    all_goals first | exact ⟨rfl, id, rfl, id⟩ | exact keeps_terminate c _

theorem keeps_dispatchCompressedData (codec : Codec σ) (c : Connection σ) (data : List UInt8) (kind : Opcode) :
    c.Keeps (c.dispatchCompressedData codec data kind) := by
  have hdeflate : ∀ deflate, c.Keeps {c with deflate := some deflate} := fun _ => ⟨rfl, id, rfl, id⟩
  unfold dispatchCompressedData
  split
  · exact keeps_terminate c _
  · split
    · exact (hdeflate _).trans (keeps_terminate _ _)
    · exact (hdeflate _).trans (keeps_dispatchData codec _ _ _)

theorem keeps_dispatchBuffer (codec : Codec σ) (c : Connection σ) (kind : Opcode) : c.Keeps (c.dispatchBuffer codec kind) := by
  have h := keeps_dispatchData codec {c with receiveBuffer := []} c.receiveBuffer kind
  exact ⟨h.final, fun _ => rfl, h.received, h.buffering⟩

theorem keeps_dispatchCompressedBuffer (codec : Codec σ) (c : Connection σ) (kind : Opcode) :
    c.Keeps (c.dispatchCompressedBuffer codec kind) := by
  have h := keeps_dispatchCompressedData codec {c with receiveBuffer := []} c.receiveBuffer kind
  exact ⟨h.final, fun _ => rfl, h.received, h.buffering⟩

theorem keeps_consume (codec : Codec σ) (c : Connection σ) (data : List UInt8) (left : Nat) (kind : Opcode) (isFinal : Bool) :
    c.Keeps (c.consume codec data left kind isFinal).2 := by
  have hpending : c.Keeps {c with
      receiveBuffer := c.receiveBuffer ++ data, receivePendingChunkLen := c.receivePendingChunkLen - left} :=
    ⟨rfl, fun h => by show _ - _ = 0; rw [h, Nat.zero_sub], rfl, id⟩
  have hbuffered : c.Keeps {c with receiveBuffer := c.receiveBuffer ++ data, receivePendingChunkLen := 0} :=
    ⟨rfl, fun _ => rfl, rfl, id⟩
  unfold consume
  dsimp only
  split_ifs
  · exact hbuffered.trans (keeps_dispatchCompressedBuffer codec _ _)
  · exact hbuffered
  · exact hpending
  · have h := keeps_dispatchData codec c data kind
    exact ⟨h.final, h.pending, h.received, h.buffering⟩
  · exact keeps_dispatchBuffer codec c kind
  · exact .same
  · exact hbuffered.trans (keeps_dispatchBuffer codec _ _)
  · exact hbuffered
  · exact hpending

end Connection

/-! ### Turns of the loop -/

/-- The states behind the header of a message -/
def ReceiveState.isMessage : ReceiveState → Bool
  | needBody | extendedPayloadLength16 | extendedPayloadLength64 => true
  | _ => false

/-- What holds between two turns: the message of a body is final if the client says so. -/
structure Sound (s : Locals × Connection σ) : Prop where
  pending : s.2.receivePendingChunkLen = 0
  received : s.2.closeReceived = false
  final : s.1.receiveState.isMessage = true → s.1.isFinal = s.2.receivingIsFinal
  buffering : s.2.closeFrameBuffering = true → s.1.receiveState = .close ∧ s.2.pingLen ≤ 125

variable {s : Locals × Connection σ} {header : WebsocketHeader} {ℓ : Locals} {c : Connection σ} {α : Type}
  {data more rest : List UInt8} {kind : ControlKind σ}

theorem Sound.not_buffering (h : Sound s) (hstate : s.1.receiveState ≠ .close) :
    ¬s.2.closeFrameBuffering = true := fun hb => hstate (h.buffering hb).1

theorem Sound.of_keeps {s t : Locals × Connection σ} (h : Sound s) (hstate : s.1.receiveState ≠ .close)
    (hkeeps : s.2.Keeps t.2) (hfinal : t.1.receiveState.isMessage = true → t.1.isFinal = s.2.receivingIsFinal) :
    Sound t where
  pending := hkeeps.pending h.pending
  received := hkeeps.received.trans h.received
  final ht := (hfinal ht).trans hkeeps.final.symm
  buffering hb := absurd (hkeeps.buffering hb) (h.not_buffering hstate)

/-- A close frame with less than two bytes of its body -/
def Locals.closeCut (ℓ : Locals) : Prop := ℓ.receiveState = .close ∧ ℓ.receiveBodyRemain ≤ 1

theorem opcode_of_isMessage (h : (parseWebsocketHeader header).1.isMessage = true) :
    (header.opcode = .text ∨ header.opcode = .binary) ∨ header.opcode = .continue_ := by
  revert h
  show ReceiveState.isMessage (ite _ _ _) = true → _
  split
  · exact fun h => by cases h
  · split
    · exact fun h => by cases h
    · split
      · exact fun h => by cases h
      · split
        · rename_i hop; exact fun _ => .inl (.inl hop)
        · rename_i hop; exact fun _ => .inr hop
        · rename_i hop; exact fun _ => .inl (.inr hop)
        all_goals exact fun h => by cases h

theorem beginFrame_final (c : Connection σ)
    (h : (parseWebsocketHeader header).1.isMessage = true) : (c.beginFrame header).receivingIsFinal = header.final := by
  unfold Connection.beginFrame
  rw [if_pos (opcode_of_isMessage h)]

theorem keeps_beginCompression (c : Connection σ) (header : WebsocketHeader) (needCompression : Bool) :
    c.Keeps (c.beginCompression header needCompression) := by
  unfold Connection.beginCompression
  split_ifs
  · exact ⟨rfl, id, rfl, id⟩
  · exact ⟨rfl, id, rfl, id⟩
  · exact .same

theorem readHeader_sound
    (hs : Sound (ℓ, c)) (hstate : ℓ.receiveState = .needHeader) (h : readHeader codec header ℓ c = .ok s) : Sound s := by
  have hclose : ℓ.receiveState ≠ .close := by rw [hstate]; decide
  have hframe : (c.beginFrame header).receivePendingChunkLen = 0 ∧ (c.beginFrame header).closeReceived = false ∧
      ¬(c.beginFrame header).closeFrameBuffering = true := by
    unfold Connection.beginFrame
    split <;> exact ⟨hs.pending, hs.received, hs.not_buffering hclose⟩
  have hbegin := keeps_beginCompression (c.beginFrame header) header (parseWebsocketHeader header).2
  have hempty : ∀ kind, Sound ((⟨.needHeader, kind, 0, header.final⟩ : Locals),
      {(((c.beginFrame header).beginCompression header (parseWebsocketHeader header).2).consume codec [] 0 kind
        header.final).2 with receivingCompressed := false, messageIsCompressed := false}) := by
    intro kind
    have hkeeps := hbegin.trans (Connection.keeps_consume codec _ [] 0 kind header.final)
    exact ⟨hkeeps.pending hframe.1, hkeeps.received.trans hframe.2.1, (fun hstate => by cases hstate),
      fun hb => absurd (hkeeps.buffering hb) hframe.2.2⟩
  have hbody : ∀ kind, Sound ((⟨(parseWebsocketHeader header).1, kind, header.len.toNat, header.final⟩ : Locals),
      (c.beginFrame header).beginCompression header (parseWebsocketHeader header).2) :=
    fun kind => ⟨hbegin.pending hframe.1, hbegin.received.trans hframe.2.1,
      fun hstate => (hbegin.final.trans (beginFrame_final c hstate)).symm,
      fun hb => absurd (hbegin.buffering hb) hframe.2.2⟩
  unfold readHeader at h
  dsimp only at h
  split_ifs at h <;> cases h
  · exact hempty _
  · exact hempty _
  · exact hbody _
  · exact hbody _

/-! ### More input -/

theorem take_min (n : Nat) (data : List α) : data.take (min n data.length) = data.take n :=
  List.take_eq_take_min.symm

theorem drop_min (n : Nat) (data : List α) : data.drop (min n data.length) = data.drop n := by
  by_cases h : n ≤ data.length
  · rw [Nat.min_eq_left h]
  · rw [Nat.min_eq_right (by omega), List.drop_eq_nil_of_le (by omega), List.drop_eq_nil_of_le (by omega)]

theorem take_append_of_le {data more : List α} {n : Nat} (h : data.length ≤ n) :
    (data ++ more).take n = data ++ more.take (n - data.length) := by
  rw [List.take_append, List.take_of_length_le h]

theorem drop_append_of_le {data more : List α} {n : Nat} (h : data.length ≤ n) :
    (data ++ more).drop n = more.drop (n - data.length) := by
  rw [List.drop_append, List.drop_eq_nil_of_le h, List.nil_append]

/-- The bytes of a length are there, or all that came is kept. -/
theorem extendedPayloadLength_eq (byteSize : Nat) (ℓ : Locals) (c : Connection σ) (hdata : data ≠ []) :
    extendedPayloadLength byteSize ℓ c data =
      if c.payloadLengthFrameBytes.length + data.length < byteSize then
        .wait (ℓ, {c with payloadLengthFrameBytes := c.payloadLengthFrameBytes ++ data})
      else
        behindLength ((c.payloadLengthFrameBytes ++ data.take (byteSize - c.payloadLengthFrameBytes.length)).take byteSize) ℓ c
          (data.drop (byteSize - c.payloadLengthFrameBytes.length)) := by
  unfold extendedPayloadLength
  rw [if_neg hdata]
  dsimp only
  rw [take_min, drop_min, List.length_append, List.length_take]
  by_cases hshort : c.payloadLengthFrameBytes.length + data.length < byteSize
  · rw [if_pos hshort, if_pos (by omega), List.take_of_length_le (by omega)]
  · rw [if_neg hshort, if_neg (by omega)]

/-- The payload of a control frame is there, or all that came is copied. -/
theorem copyControl_eq (kind : ControlKind σ) (ℓ : Locals) (c : Connection σ) (data : List UInt8) :
    copyControl codec kind ℓ c data =
      if ℓ.receiveBodyRemain + data.length < c.pingLen then
        .wait ({ℓ with receiveBodyRemain := ℓ.receiveBodyRemain + data.length},
          {c with pingFrameBytes := c.pingFrameBytes.take ℓ.receiveBodyRemain ++ data})
      else
        behindControl codec kind ℓ
          {c with pingFrameBytes := c.pingFrameBytes.take ℓ.receiveBodyRemain ++ data.take (c.pingLen - ℓ.receiveBodyRemain)}
          (data.drop (c.pingLen - ℓ.receiveBodyRemain)) := by
  unfold copyControl
  by_cases hdata : data = []
  · subst hdata
    simp only [if_true, List.take_nil, List.drop_nil, List.length_nil, Nat.add_zero, Nat.sub_pos_iff_lt]
  · have hmin : min c.pingLen (ℓ.receiveBodyRemain + data.length) - ℓ.receiveBodyRemain =
        min (c.pingLen - ℓ.receiveBodyRemain) data.length := by omega
    rw [if_neg hdata]
    dsimp only
    rw [hmin, take_min, drop_min]
    by_cases hshort : ℓ.receiveBodyRemain + data.length < c.pingLen
    · have htake : data.take (c.pingLen - ℓ.receiveBodyRemain) = data := List.take_of_length_le (by omega)
      rw [if_pos hshort, if_pos (by omega), htake, Nat.min_eq_right (by omega)]
    · rw [if_neg hshort, if_neg (by omega)]

/-- The body of a close frame is there, or all that came is copied. -/
theorem copyClose_eq (ℓ : Locals) (c : Connection σ) (data : List UInt8) :
    copyClose codec ℓ c data =
      if ℓ.receiveBodyRemain + data.length < c.pingLen then
        .wait ({ℓ with receiveBodyRemain := ℓ.receiveBodyRemain + data.length},
          {c with pingFrameBytes := c.pingFrameBytes.take ℓ.receiveBodyRemain ++ data})
      else
        closeWithBody codec {ℓ with receiveBodyRemain := ℓ.receiveBodyRemain + (c.pingLen - ℓ.receiveBodyRemain)}
          {c with
            pingFrameBytes := c.pingFrameBytes.take ℓ.receiveBodyRemain ++ data.take (c.pingLen - ℓ.receiveBodyRemain)} := by
  unfold copyClose
  dsimp only
  by_cases hshort : ℓ.receiveBodyRemain + data.length < c.pingLen
  · have hmin : min data.length (c.pingLen - ℓ.receiveBodyRemain) = data.length := by omega
    rw [hmin, if_pos hshort, if_pos hshort, List.take_length]
  · have hmin : min data.length (c.pingLen - ℓ.receiveBodyRemain) = c.pingLen - ℓ.receiveBodyRemain := by omega
    rw [hmin, if_neg hshort, if_neg (by omega)]

section
variable {more : List UInt8} {fine : Locals × Connection σ → Prop} (hmore : more ≠ [])
include hmore

theorem turnEnd_with (ℓ : Locals) (c : Connection σ) (data : List UInt8) :
    (turnEnd ℓ c data).With (turn codec) fine more (turnEnd ℓ c (data ++ more)) := by
  have hne : ∀ front : List UInt8, front ++ more ≠ [] := fun front => List.append_ne_nil_of_right_ne_nil front hmore
  unfold turnEnd
  rw [if_neg (hne data)]
  by_cases hdata : data = []
  · rw [if_pos hdata]
    subst hdata
    exact fun _ => .inr rfl
  · rw [if_neg hdata]
    rfl

theorem behindHeader_with (ℓ : Locals) (read : Except (Connection σ) (Locals × Connection σ)) (data : List UInt8) :
    (behindHeader ℓ read data).With (turn codec) fine more (behindHeader ℓ read (data ++ more)) := by
  cases read with
  | error c => rfl
  | ok s =>
    show Progress.With _ _ _ (ite _ _ _) (ite _ _ _)
    split
    · exact turnEnd_with hmore s.1 s.2 data
    · rfl

theorem needHeader_with (ℓ : Locals) (c : Connection σ) (data : List UInt8) (hstate : ℓ.receiveState = .needHeader) :
    (needHeader codec ℓ c data).With (turn codec) fine more (needHeader codec ℓ c (data ++ more)) := by
  have hagain : ∀ c : Connection σ, turn codec (ℓ, c) more = needHeader codec ℓ c more := by
    intro c
    unfold turn
    rw [hstate]
  match data, hfragment : c.headerFragment with
  | [], fragment =>
    have hwait : needHeader codec ℓ c [] = .wait (ℓ, c) := by
      unfold needHeader
      cases c.headerFragment <;> rfl
    rw [hwait]
    exact fun _ => .inl (hagain c).symm
  | b₁ :: data, some b₀ =>
    unfold needHeader
    rw [hfragment]
    exact behindHeader_with hmore ℓ _ data
  | b₀ :: b₁ :: data, none =>
    unfold needHeader
    rw [hfragment]
    exact behindHeader_with hmore ℓ _ data
  | [b₀], none =>
    obtain ⟨b₁, more, rfl⟩ := List.exists_cons_of_ne_nil hmore
    have hwait : needHeader codec ℓ c [b₀] = .wait (ℓ, {c with headerFragment := some b₀}) := by
      unfold needHeader
      rw [hfragment]
    have hsame : {c with headerFragment := none} = c := by rw [← hfragment]
    rw [hwait]
    intro _
    left
    rw [hagain]
    show needHeader codec ℓ c (b₀ :: b₁ :: more) =
      behindHeader ℓ (readHeader codec (.fromSlice b₀ b₁) ℓ {c with headerFragment := none}) more
    rw [hsame]
    unfold needHeader
    rw [hfragment]

theorem extendedPayloadLength_with (byteSize : Nat) (ℓ : Locals) (c : Connection σ) (data : List UInt8)
    (hagain : ∀ c, turn codec (ℓ, c) more = extendedPayloadLength byteSize ℓ c more) :
    (extendedPayloadLength byteSize ℓ c data).With (turn codec) fine more
      (extendedPayloadLength byteSize ℓ c (data ++ more)) := by
  by_cases hdata : data = []
  · subst hdata
    have hwait : extendedPayloadLength byteSize ℓ c [] = .wait (ℓ, c) := rfl
    rw [hwait]
    exact fun _ => .inl (hagain c).symm
  rw [extendedPayloadLength_eq byteSize ℓ c hdata,
    extendedPayloadLength_eq byteSize ℓ c (List.append_ne_nil_of_right_ne_nil data hmore)]
  by_cases hshort : c.payloadLengthFrameBytes.length + data.length < byteSize
  · rw [if_pos hshort]
    intro _
    left
    have hle : data.length ≤ byteSize - c.payloadLengthFrameBytes.length := by omega
    rw [hagain, extendedPayloadLength_eq byteSize ℓ _ hmore, take_append_of_le hle, drop_append_of_le hle]
    simp only [List.length_append, Nat.add_assoc, Nat.sub_sub, List.append_assoc]
    rfl
  · have hlong : ¬c.payloadLengthFrameBytes.length + (data ++ more).length < byteSize := by
      rw [List.length_append]
      omega
    have hle : byteSize - c.payloadLengthFrameBytes.length ≤ data.length := by omega
    rw [if_neg hshort, if_neg hlong, List.take_append_of_le_length hle, List.drop_append_of_le_length hle]
    unfold behindLength
    dsimp only
    split <;> rfl

omit hmore in
theorem take_copied (bytes data : List UInt8) (n : Nat) : (bytes.take n ++ data).take (n + data.length) = bytes.take n ++ data := by
  apply List.take_of_length_le
  rw [List.length_append, List.length_take]
  omega

theorem copyControl_with (kind : ControlKind σ) (ℓ : Locals) (c : Connection σ) (data : List UInt8)
    (hagain : ∀ remain bytes, turn codec ({ℓ with receiveBodyRemain := remain}, {c with pingFrameBytes := bytes}) more =
      copyControl codec kind {ℓ with receiveBodyRemain := remain} {c with pingFrameBytes := bytes} more) :
    (copyControl codec kind ℓ c data).With (turn codec) fine more (copyControl codec kind ℓ c (data ++ more)) := by
  rw [copyControl_eq, copyControl_eq]
  by_cases hshort : ℓ.receiveBodyRemain + data.length < c.pingLen
  · rw [if_pos hshort]
    intro _
    left
    have hle : data.length ≤ c.pingLen - ℓ.receiveBodyRemain := by omega
    rw [hagain, copyControl_eq, take_append_of_le hle, drop_append_of_le hle]
    dsimp only
    rw [take_copied]
    simp only [List.length_append, Nat.add_assoc, Nat.sub_sub, List.append_assoc]
    rfl
  · have hlong : ¬ℓ.receiveBodyRemain + (data ++ more).length < c.pingLen := by
      rw [List.length_append]
      omega
    have hle : c.pingLen - ℓ.receiveBodyRemain ≤ data.length := by omega
    rw [if_neg hshort, if_neg hlong, List.take_append_of_le_length hle, List.drop_append_of_le_length hle]
    exact turnEnd_with hmore _ _ _

theorem receiveControl_with {kind : ControlKind σ} (hkind : kind = pingKind ∨ kind = pongKind) (ℓ : Locals)
    (c : Connection σ) (data : List UInt8)
    (hagain : ∀ remain c, turn codec ({ℓ with receiveBodyRemain := remain}, c) more =
      receiveControl codec kind {ℓ with receiveBodyRemain := remain} c more) :
    (receiveControl codec kind ℓ c data).With (turn codec) fine more (receiveControl codec kind ℓ c (data ++ more)) := by
  have hcopy : ∀ remain (c : Connection σ), kind.received c = true →
      (copyControl codec kind {ℓ with receiveBodyRemain := remain} c data).With (turn codec) fine more
        (copyControl codec kind {ℓ with receiveBodyRemain := remain} c (data ++ more)) := by
    intro remain c hc
    apply copyControl_with hmore
    intro remain' bytes
    have hreceived : kind.received {c with pingFrameBytes := bytes} = true := by rcases hkind with rfl | rfl <;> exact hc
    rw [hagain]
    unfold receiveControl
    rw [hreceived]
    rfl
  unfold receiveControl
  by_cases hreceived : kind.received c
  · rw [hreceived]
    exact hcopy ℓ.receiveBodyRemain c hreceived
  · rw [Bool.not_eq_true] at hreceived
    rw [hreceived]
    by_cases hlong : 125 < ℓ.receiveBodyRemain
    · simp only [Bool.not_false, if_true, if_pos hlong]
      rfl
    · simp only [Bool.not_false, if_true, if_neg hlong]
      apply hcopy 0
      rcases hkind with rfl | rfl <;> rfl

end

theorem copyClose_with (ℓ : Locals) (c : Connection σ) (data : List UInt8) (hstate : ℓ.receiveState = .close)
    (hbuffering : c.closeFrameBuffering = true) (hlen : c.pingLen ≤ 125) :
    (copyClose codec ℓ c data).With (turn codec) (fun s => ¬s.1.closeCut) more (copyClose codec ℓ c (data ++ more)) := by
  rw [copyClose_eq, copyClose_eq]
  by_cases hshort : ℓ.receiveBodyRemain + data.length < c.pingLen
  · rw [if_pos hshort]
    intro hfine
    left
    have hcut : ¬ℓ.receiveBodyRemain + data.length ≤ 1 := fun h => hfine ⟨hstate, h⟩
    have hle : data.length ≤ c.pingLen - ℓ.receiveBodyRemain := by omega
    have hagain : ∀ bytes, turn codec ({ℓ with receiveBodyRemain := ℓ.receiveBodyRemain + data.length},
        {c with pingFrameBytes := bytes}) more = copyClose codec {ℓ with receiveBodyRemain := ℓ.receiveBodyRemain + data.length}
          {c with pingFrameBytes := bytes} more := by
      intro bytes
      unfold turn
      dsimp only
      rw [hstate]
      show receiveClose codec _ _ more = _
      unfold receiveClose
      dsimp only
      rw [if_neg (by omega), if_pos (by omega), hbuffering]
      rfl
    rw [hagain, copyClose_eq, take_append_of_le hle]
    dsimp only
    rw [take_copied]
    have hsum : ℓ.receiveBodyRemain + data.length + (c.pingLen - (ℓ.receiveBodyRemain + data.length)) =
        ℓ.receiveBodyRemain + (c.pingLen - ℓ.receiveBodyRemain) := by omega
    rw [hsum]
    simp only [List.length_append, Nat.add_assoc, Nat.sub_sub, List.append_assoc]
  · have hlong : ¬ℓ.receiveBodyRemain + (data ++ more).length < c.pingLen := by
      rw [List.length_append]
      omega
    have hle : c.pingLen - ℓ.receiveBodyRemain ≤ data.length := by omega
    rw [if_neg hshort, if_neg hlong, List.take_append_of_le_length hle]
    unfold closeWithBody
    dsimp only
    split <;> rfl

theorem receiveClose_with (ℓ : Locals) (c : Connection σ) (data : List UInt8) (hstate : ℓ.receiveState = .close)
    (hbuffering : c.closeFrameBuffering = true → c.pingLen ≤ 125) :
    (receiveClose codec ℓ c data).With (turn codec) (fun s => ¬s.1.closeCut) more (receiveClose codec ℓ c (data ++ more)) := by
  unfold receiveClose
  by_cases hlen : ℓ.receiveBodyRemain = 1 ∨ 125 < ℓ.receiveBodyRemain
  · rw [if_pos hlen, if_pos hlen]
    rfl
  rw [if_neg hlen, if_neg hlen]
  by_cases hbody : 0 < ℓ.receiveBodyRemain
  · rw [if_pos hbody, if_pos hbody]
    by_cases hb : c.closeFrameBuffering
    · rw [hb]
      exact copyClose_with ℓ c data hstate hb (hbuffering hb)
    · rw [Bool.not_eq_true] at hb
      rw [hb]
      have hle : ℓ.receiveBodyRemain ≤ 125 := by omega
      exact copyClose_with {ℓ with receiveBodyRemain := 0} _ data hstate rfl hle
  · rw [if_neg hbody, if_neg hbody]
    rfl

/-! ### Bodies in pieces -/

theorem clearReceiveBuffers_of_empty (hbuffer : c.receiveBuffer = [])
    (hpending : c.receivePendingChunkLen = 0) : c.clearReceiveBuffers = c := by
  unfold Connection.clearReceiveBuffers
  rw [← hbuffer, ← hpending]

theorem dispatchLast_receiveBuffer (c : Connection σ) (event : Event) :
    (c.dispatchLast event).receiveBuffer = c.receiveBuffer := by
  unfold Connection.dispatchLast
  split <;> rfl

theorem terminate_receiveBuffer (c : Connection σ) (code : ErrorCode) : (c.terminate code).receiveBuffer = [] := by
  unfold Connection.terminate Connection.cancel
  split
  · exact dispatchLast_receiveBuffer _ _
  · rfl

theorem dispatchData_receiveBuffer (hbuffer : c.receiveBuffer = []) (data : List UInt8) (kind : Opcode) :
    (c.dispatchData codec data kind).receiveBuffer = [] := by
  unfold Connection.dispatchData
  split
  · rfl
  · split
    · split
      · exact hbuffer
      · exact terminate_receiveBuffer c _
    all_goals first | exact hbuffer | exact terminate_receiveBuffer c _

section
variable {c : Connection σ} {left : Nat} {kind : Opcode} {isFinal : Bool}

theorem consume_fst (data : List UInt8) : (c.consume codec data left kind isFinal).1 = data.length := by
  unfold Connection.consume
  dsimp only
  split
  · split <;> rfl
  · split
    · rfl
    · split
      · rename_i hempty; rw [hempty.2]; rfl
      · split
        · rename_i hempty; rw [hempty]; rfl
        · split <;> rfl

theorem consume_nil (hleft : 0 < left) (hpending : c.receivePendingChunkLen = 0) :
    (c.consume codec [] left kind isFinal).2 = c := by
  have hcomplete : ¬(([] : List UInt8).length ≤ left ∧ left - ([] : List UInt8).length - c.receivePendingChunkLen = 0) := by
    rw [List.length_nil]
    omega
  have hwhole : ¬(isFinal = true ∧ ([] : List UInt8).length = left ∧ c.receivePendingChunkLen = 0) := by
    rw [List.length_nil]
    omega
  unfold Connection.consume
  dsimp only
  rw [if_neg hcomplete, List.append_nil]
  split
  · show ({c with receivePendingChunkLen := c.receivePendingChunkLen - left} : Connection σ) = c
    rw [hpending, Nat.zero_sub, ← hpending]
  · rw [if_neg fun h => hwhole h.1, if_neg fun h => hwhole h.1]
    rfl

/-- The message, once its last body is in the receive buffer -/
def Connection.behindBody (codec : Codec σ) (c : Connection σ) (kind : Opcode) : Connection σ :=
  if c.receivingCompressed then c.dispatchCompressedBuffer codec kind else c.dispatchBuffer codec kind

/-- A message that was dispatched from the segment could have gone through the receive buffer. -/
theorem dispatchData_eq_dispatchBuffer (hbuffer : c.receiveBuffer = []) (hpending : c.receivePendingChunkLen = 0)
    (data : List UInt8) :
    ({c.dispatchData codec data kind with messageIsCompressed := false} : Connection σ) =
      {c with receiveBuffer := c.receiveBuffer ++ data}.dispatchBuffer codec kind := by
  have hempty : ({c with receiveBuffer := []} : Connection σ) = c := by rw [← hbuffer]
  have hclear : (c.dispatchData codec data kind).clearReceiveBuffers = c.dispatchData codec data kind :=
    clearReceiveBuffers_of_empty (dispatchData_receiveBuffer hbuffer data kind)
      ((Connection.keeps_dispatchData codec c data kind).pending hpending)
  show _ = ({(({c with receiveBuffer := []} : Connection σ).dispatchData codec (c.receiveBuffer ++ data)
    kind).clearReceiveBuffers with messageIsCompressed := false} : Connection σ)
  rw [hempty, hbuffer, List.nil_append, hclear]

/-- A piece of a body goes to the receive buffer, and the last piece of the last body brings the message. -/
theorem consume_eq (hpending : c.receivePendingChunkLen = 0) {data : List UInt8} (hdata : data ≠ []) :
    (c.consume codec data left kind isFinal).2 =
      if data.length = left ∧ isFinal = true then {c with receiveBuffer := c.receiveBuffer ++ data}.behindBody codec kind
      else {c with receiveBuffer := c.receiveBuffer ++ data} := by
  have hzero : ({c with receiveBuffer := c.receiveBuffer ++ data, receivePendingChunkLen := 0} : Connection σ) =
      {c with receiveBuffer := c.receiveBuffer ++ data} := by rw [← hpending]
  have hrest : ({c with
      receiveBuffer := c.receiveBuffer ++ data, receivePendingChunkLen := c.receivePendingChunkLen - left} : Connection σ) =
      {c with receiveBuffer := c.receiveBuffer ++ data} := by rw [hpending, Nat.zero_sub, ← hpending]
  have hcomplete : (data.length ≤ left ∧ left - data.length - c.receivePendingChunkLen = 0) ↔ data.length = left := by omega
  unfold Connection.consume Connection.behindBody
  dsimp only
  rw [hzero, hrest]
  by_cases hdone : data.length = left
  · rw [if_pos (hcomplete.2 hdone), if_pos (hcomplete.2 hdone)]
    by_cases hcompressed : c.receivingCompressed = true
    · simp only [if_pos hcompressed, hdone, true_and]
    · simp only [if_neg hcompressed, hdone, true_and]
      by_cases hfinal : isFinal = true
      · by_cases hbuffer : c.receiveBuffer = []
        · rw [if_pos ⟨⟨hfinal, hpending⟩, hbuffer⟩, if_pos hfinal]
          exact dispatchData_eq_dispatchBuffer hbuffer hpending data
        · rw [if_neg fun h => hbuffer h.2, if_neg fun h => hdata h.2, if_neg hdata, if_pos hfinal]
      · rw [if_neg fun h => hfinal h.1.1, if_neg fun h => hfinal h.1.1, if_neg hdata]
  · have hlast : ¬(data.length = left ∧ isFinal = true) := fun h => hdone h.1
    have hwhole : ¬(isFinal = true ∧ data.length = left ∧ c.receivePendingChunkLen = 0) := fun h => hdone h.2.1
    rw [if_neg (mt hcomplete.1 hdone), if_neg (mt hcomplete.1 hdone), if_neg hlast]
    split
    · rfl
    · rw [if_neg fun h => hwhole h.1, if_neg fun h => hwhole h.1]

end

theorem needBody_short (ℓ : Locals) (hpending : c.receivePendingChunkLen = 0)
    (hsize : ¬maxReceiveMessageLength < c.receiveBuffer.length + ℓ.receiveBodyRemain)
    (hshort : data.length < ℓ.receiveBodyRemain) :
    needBody codec ℓ c data =
      .wait ({ℓ with receiveBodyRemain := ℓ.receiveBodyRemain - data.length},
        {c with receiveBuffer := c.receiveBuffer ++ data}) := by
  have hconsume : ∀ kind isFinal, (c.consume codec data ℓ.receiveBodyRemain kind isFinal).2 =
      {c with receiveBuffer := c.receiveBuffer ++ data} := by
    intro kind isFinal
    by_cases hdata : data = []
    · subst hdata
      rw [consume_nil hshort hpending, List.append_nil]
    · rw [consume_eq hpending hdata, if_neg fun h => absurd h.1 (by omega)]
  unfold needBody
  rw [if_neg hsize]
  dsimp only
  rw [Nat.min_eq_right (Nat.le_of_lt hshort), List.take_length, List.drop_length, consume_fst, hconsume,
    if_neg (by omega)]
  rfl

theorem needBody_long (ℓ : Locals) (hsize : ¬maxReceiveMessageLength < c.receiveBuffer.length + ℓ.receiveBodyRemain)
    (hlong : ℓ.receiveBodyRemain ≤ data.length) :
    needBody codec ℓ c data =
      turnEnd {ℓ with receiveBodyRemain := 0, receiveState := .needHeader}
        (c.consume codec (data.take ℓ.receiveBodyRemain) ℓ.receiveBodyRemain ℓ.lastReceiveDataType ℓ.isFinal).2
        (data.drop ℓ.receiveBodyRemain) := by
  unfold needBody
  rw [if_neg hsize]
  dsimp only
  rw [Nat.min_eq_left hlong, consume_fst, List.length_take, Nat.min_eq_left hlong, Nat.sub_self]
  rfl

theorem needBody_with {fine : Locals × Connection σ → Prop} (hmore : more ≠ []) (ℓ : Locals)
    (c : Connection σ) (data : List UInt8) (hstate : ℓ.receiveState = .needBody) (hpending : c.receivePendingChunkLen = 0) :
    (needBody codec ℓ c data).With (turn codec) fine more (needBody codec ℓ c (data ++ more)) := by
  by_cases hsize : maxReceiveMessageLength < c.receiveBuffer.length + ℓ.receiveBodyRemain
  · unfold needBody
    rw [if_pos hsize, if_pos hsize]
    rfl
  by_cases hshort : data.length < ℓ.receiveBodyRemain
  · rw [needBody_short ℓ hpending hsize hshort]
    intro _
    left
    have hagain : ∀ (remain : Nat) (c : Connection σ), turn codec ({ℓ with receiveBodyRemain := remain}, c) more =
        needBody codec {ℓ with receiveBodyRemain := remain} c more := by
      intro remain c
      unfold turn
      dsimp only
      rw [hstate]
    have hsize' : ¬maxReceiveMessageLength < (c.receiveBuffer ++ data).length + (ℓ.receiveBodyRemain - data.length) := by
      rw [List.length_append]
      omega
    have hpieces : ({c with receiveBuffer := c.receiveBuffer ++ data} : Connection σ).receivePendingChunkLen = 0 := hpending
    rw [hagain]
    by_cases hlonger : (data ++ more).length < ℓ.receiveBodyRemain
    · have hrest : more.length < ℓ.receiveBodyRemain - data.length := by
        rw [List.length_append] at hlonger
        omega
      rw [needBody_short ℓ hpending hsize hlonger,
        needBody_short {ℓ with receiveBodyRemain := ℓ.receiveBodyRemain - data.length} hpieces hsize' hrest]
      simp only [List.length_append, List.append_assoc, Nat.sub_sub]
    · have hle : data.length ≤ ℓ.receiveBodyRemain := Nat.le_of_lt hshort
      have hrest : ℓ.receiveBodyRemain - data.length ≤ more.length := by
        rw [List.length_append] at hlonger
        omega
      rw [needBody_long ℓ hsize (Nat.le_of_not_lt hlonger),
        needBody_long {ℓ with receiveBodyRemain := ℓ.receiveBodyRemain - data.length} hsize' hrest,
        take_append_of_le hle, drop_append_of_le hle]
      have htake : more.take (ℓ.receiveBodyRemain - data.length) ≠ [] := by
        intro h
        have hlen := congrArg List.length h
        rw [List.length_take, List.length_nil] at hlen
        omega
      have hfull : (data ++ more.take (ℓ.receiveBodyRemain - data.length)).length = ℓ.receiveBodyRemain := by
        rw [List.length_append, List.length_take]
        omega
      have hfull' : (more.take (ℓ.receiveBodyRemain - data.length)).length = ℓ.receiveBodyRemain - data.length := by
        rw [List.length_take]
        omega
      rw [consume_eq hpending (List.append_ne_nil_of_right_ne_nil data htake), consume_eq hpieces htake]
      dsimp only
      rw [hfull, hfull']
      simp only [true_and, List.append_assoc]
  · have hle : ℓ.receiveBodyRemain ≤ data.length := by omega
    rw [needBody_long ℓ hsize hle, needBody_long ℓ hsize (by rw [List.length_append]; omega),
      List.take_append_of_le_length hle, List.drop_append_of_le_length hle]
    exact turnEnd_with hmore _ _ _

/-! ### The loop -/

theorem turn_with (hmore : more ≠ []) (hs : Sound s) (data : List UInt8) :
    (turn codec s data).With (turn codec) (fun s => ¬s.1.closeCut) more (turn codec s (data ++ more)) := by
  obtain ⟨ℓ, c⟩ := s
  cases hstate : ℓ.receiveState
  all_goals
    unfold turn
    rw [hstate]
  case needHeader => exact needHeader_with hmore ℓ c data hstate
  case needMask => rfl
  case needBody => exact needBody_with hmore ℓ c data hstate hs.pending
  case extendedPayloadLength16 =>
    refine extendedPayloadLength_with hmore 2 ℓ c data fun c' => ?_
    unfold turn
    rw [hstate]
  case extendedPayloadLength64 =>
    refine extendedPayloadLength_with hmore 8 ℓ c data fun c' => ?_
    unfold turn
    rw [hstate]
  case ping =>
    refine receiveControl_with hmore (.inl rfl) ℓ c data fun remain c' => ?_
    unfold turn
    rw [hstate]
  case pong =>
    refine receiveControl_with hmore (.inr rfl) ℓ c data fun remain c' => ?_
    unfold turn
    rw [hstate]
  case close => exact receiveClose_with ℓ c data hstate fun hb => (hs.buffering hb).2
  case fail => rfl

/-! ### What holds between two turns -/

theorem turnEnd_all {P : Locals × Connection σ → Prop} (h : P (ℓ, c)) (data : List UInt8) :
    (turnEnd ℓ c data).All P := by
  unfold turnEnd
  split <;> exact h

theorem behindHeader_all (hs : Sound (ℓ, c)) (hstate : ℓ.receiveState = .needHeader) (data : List UInt8) :
    (behindHeader ℓ (readHeader codec header ℓ c) data).All Sound := by
  cases hread : readHeader codec header ℓ c with
  | error c => trivial
  | ok s =>
    have hsound := readHeader_sound hs hstate hread
    show Progress.All Sound (ite _ _ _)
    split
    · exact turnEnd_all hsound data
    · exact hsound

theorem needHeader_all (hs : Sound (ℓ, c)) (hstate : ℓ.receiveState = .needHeader)
    (data : List UInt8) : (needHeader codec ℓ c data).All Sound := by
  have hfragment : ∀ fragment, Sound (ℓ, {c with headerFragment := fragment}) :=
    fun _ => ⟨hs.pending, hs.received, hs.final, hs.buffering⟩
  unfold needHeader
  split
  · exact hs
  · exact behindHeader_all (hfragment none) hstate _
  · exact hfragment _
  · exact behindHeader_all hs hstate _

theorem extendedPayloadLength_all {byteSize : Nat} (hs : Sound (ℓ, c))
    (hstate : ℓ.receiveState.isMessage = true) (data : List UInt8) :
    (extendedPayloadLength byteSize ℓ c data).All Sound := by
  have hclose : ℓ.receiveState ≠ .close := fun h => by rw [h] at hstate; cases hstate
  have hbytes : ∀ bytes remain state, Sound ({ℓ with receiveState := state, receiveBodyRemain := remain},
      {c with payloadLengthFrameBytes := bytes}) :=
    fun bytes remain state => ⟨hs.pending, hs.received, fun _ => hs.final hstate,
      fun hb => absurd hb (hs.not_buffering hclose)⟩
  unfold extendedPayloadLength behindLength
  dsimp only
  split
  · exact hs
  · split
    · exact hbytes _ ℓ.receiveBodyRemain ℓ.receiveState
    · split
      · trivial
      · exact hbytes [] _ .needBody

theorem Connection.keeps_control (hkind : kind = pingKind ∨ kind = pongKind) (c : Connection σ) :
    (∀ v, c.Keeps (kind.setReceived c v)) ∧ c.Keeps (kind.answer c) := by
  rcases hkind with rfl | rfl
  · exact ⟨fun _ => ⟨rfl, id, rfl, id⟩, keeps_sendPong c⟩
  · exact ⟨fun _ => ⟨rfl, id, rfl, id⟩, .same⟩

theorem copyControl_all (hkind : kind = pingKind ∨ kind = pongKind)
    (hs : Sound (ℓ, c)) (hclose : ℓ.receiveState ≠ .close) (hmessage : ¬ℓ.receiveState.isMessage = true)
    (data : List UInt8) : (copyControl codec kind ℓ c data).All Sound := by
  have hcopied : ∀ bytes, c.Keeps {c with pingFrameBytes := bytes} := fun _ => ⟨rfl, id, rfl, id⟩
  rw [copyControl_eq]
  split
  · exact hs.of_keeps hclose (hcopied _) fun h => absurd h hmessage
  · refine turnEnd_all (hs.of_keeps hclose ?_ fun h => by cases h) _
    have hdispatch := Connection.keeps_dispatchData codec {c with
      pingFrameBytes := c.pingFrameBytes.take ℓ.receiveBodyRemain ++ data.take (c.pingLen - ℓ.receiveBodyRemain)}
    exact (hcopied _).trans ((hdispatch _ _).trans (((Connection.keeps_control hkind _).1 false).trans
      (Connection.keeps_control hkind _).2))

theorem receiveControl_all (hkind : kind = pingKind ∨ kind = pongKind) (hs : Sound (ℓ, c)) (hclose : ℓ.receiveState ≠ .close)
    (hmessage : ¬ℓ.receiveState.isMessage = true) (data : List UInt8) :
    (receiveControl codec kind ℓ c data).All Sound := by
  have hlen : ∀ len, c.Keeps {c with pingLen := len} := fun _ => ⟨rfl, id, rfl, id⟩
  unfold receiveControl
  split
  · split
    · trivial
    · have hbegun : Sound ({ℓ with receiveBodyRemain := 0},
          kind.setReceived {c with pingLen := ℓ.receiveBodyRemain} true) :=
        hs.of_keeps hclose ((hlen _).trans ((Connection.keeps_control hkind _).1 true)) fun h => absurd h hmessage
      exact copyControl_all hkind hbegun hclose hmessage data
  · exact copyControl_all hkind hs hclose hmessage data

theorem needBody_all (hs : Sound (ℓ, c)) (hstate : ℓ.receiveState = .needBody)
    (data : List UInt8) : (needBody codec ℓ c data).All Sound := by
  have hclose : ℓ.receiveState ≠ .close := by rw [hstate]; decide
  unfold needBody
  dsimp only
  split
  · trivial
  · apply turnEnd_all
    exact hs.of_keeps hclose (Connection.keeps_consume codec c _ _ _ _) fun _ => hs.final (by rw [hstate]; rfl)

theorem receiveClose_all (hs : Sound (ℓ, c)) (hstate : ℓ.receiveState = .close)
    (data : List UInt8) : (receiveClose codec ℓ c data).All Sound := by
  have hmessage : ∀ {state : ReceiveState}, state = .close → ¬state.isMessage = true := by
    rintro _ rfl
    decide
  have hcopy : ∀ (ℓ : Locals) (c : Connection σ), Sound (ℓ, c) → ℓ.receiveState = .close → c.pingLen ≤ 125 →
      (copyClose codec ℓ c data).All Sound := by
    intro ℓ c hs hstate hlen
    rw [copyClose_eq]
    split
    · exact ⟨hs.pending, hs.received, fun h => (hmessage hstate h).elim, fun _ => ⟨hstate, hlen⟩⟩
    · unfold closeWithBody
      dsimp only
      split <;> trivial
  unfold receiveClose
  split
  · trivial
  · split
    · split
      · rename_i hlen _ _
        have hle : ℓ.receiveBodyRemain ≤ 125 := by omega
        exact hcopy _ _ ⟨hs.pending, hs.received, fun h => (hmessage hstate h).elim, fun _ => ⟨hstate, hle⟩⟩ hstate hle
      · rename_i hb
        exact hcopy ℓ c hs hstate (hs.buffering (by simpa using hb)).2
    · trivial

theorem turn_all (hs : Sound s) (data : List UInt8) : (turn codec s data).All Sound := by
  obtain ⟨ℓ, c⟩ := s
  have hnot : ∀ state, ℓ.receiveState = state → state ≠ .close → state.isMessage = false →
      ℓ.receiveState ≠ .close ∧ ¬ℓ.receiveState.isMessage = true := by
    rintro state rfl hclose hmessage
    exact ⟨hclose, by rw [hmessage]; decide⟩
  cases hstate : ℓ.receiveState
  all_goals
    unfold turn
    rw [hstate]
  case needHeader => exact needHeader_all hs hstate data
  case needMask => trivial
  case needBody => exact needBody_all hs hstate data
  case extendedPayloadLength16 => exact extendedPayloadLength_all hs (by rw [hstate]; rfl) data
  case extendedPayloadLength64 => exact extendedPayloadLength_all hs (by rw [hstate]; rfl) data
  case ping =>
    have h := hnot _ hstate (by decide) rfl
    exact receiveControl_all (.inl rfl) hs h.1 h.2 data
  case pong =>
    have h := hnot _ hstate (by decide) rfl
    exact receiveControl_all (.inr rfl) hs h.1 h.2 data
  case close => exact receiveClose_all hs hstate data
  case fail => trivial

theorem turn_resumes (codec : Codec σ) : Resumes (turn codec) Sound fun s => ¬s.1.closeCut :=
  ⟨fun _ data hs => turn_all hs data, fun _ data _ hs hmore => turn_with hmore hs data⟩

theorem turnEnd_next (h : turnEnd ℓ c data = .next s rest) : s = (ℓ, c) ∧ rest = data ∧ data ≠ [] := by
  unfold turnEnd at h
  split at h
  · cases h
  · rename_i hdata
    cases h
    exact ⟨rfl, rfl, hdata⟩

theorem behindHeader_next {read : Except (Connection σ) (Locals × Connection σ)}
    (h : behindHeader ℓ read data = .next s rest) : rest = data := by
  cases read with
  | error c => cases h
  | ok t =>
    change ite _ _ _ = _ at h
    split at h
    · exact (turnEnd_next h).2.1
    · cases h
      rfl

theorem needHeader_next (h : needHeader codec ℓ c data = .next s rest) : rest.length < data.length := by
  unfold needHeader at h
  split at h
  · cases h
  · rw [behindHeader_next h, List.length_cons]
    exact Nat.lt_succ_self _
  · cases h
  · rw [behindHeader_next h, List.length_cons, List.length_cons]
    omega

theorem extendedPayloadLength_next {byteSize : Nat} (h : extendedPayloadLength byteSize ℓ c data = .next s rest) :
    s.1.receiveState = .needBody ∧ rest.length ≤ data.length := by
  unfold extendedPayloadLength behindLength at h
  dsimp only at h
  split at h
  · cases h
  · split at h
    · cases h
    · split at h
      · cases h
      · cases h
        refine ⟨rfl, ?_⟩
        rw [List.length_drop]
        exact Nat.sub_le _ _

theorem receiveControl_next (h : receiveControl codec kind ℓ c data = .next s rest) :
    s.1.receiveState = .needHeader ∧ rest.length ≤ data.length := by
  have hcopy : ∀ (ℓ : Locals) (c : Connection σ), copyControl codec kind ℓ c data = .next s rest →
      s.1.receiveState = .needHeader ∧ rest.length ≤ data.length := by
    intro ℓ c h
    rw [copyControl_eq] at h
    split at h
    · cases h
    · obtain ⟨rfl, rfl, -⟩ := turnEnd_next h
      refine ⟨rfl, ?_⟩
      rw [List.length_drop]
      exact Nat.sub_le _ _
  unfold receiveControl at h
  split at h
  · split at h
    · cases h
    · exact hcopy _ _ h
  · exact hcopy _ _ h

theorem needBody_next
    (h : needBody codec ℓ c data = .next s rest) : s.1.receiveState = .needHeader ∧ rest.length ≤ data.length := by
  by_cases hsize : maxReceiveMessageLength < c.receiveBuffer.length + ℓ.receiveBodyRemain
  · unfold needBody at h
    rw [if_pos hsize] at h
    cases h
  by_cases hlong : ℓ.receiveBodyRemain ≤ data.length
  · rw [needBody_long ℓ hsize hlong] at h
    obtain ⟨rfl, rfl, -⟩ := turnEnd_next h
    refine ⟨rfl, ?_⟩
    rw [List.length_drop]
    exact Nat.sub_le _ _
  · unfold needBody at h
    rw [if_neg hsize] at h
    have hnil := (turnEnd_next h).2.2
    rw [Nat.min_eq_right (by omega), List.drop_length] at hnil
    exact absurd rfl hnil

theorem receiveClose_next :
    receiveClose codec ℓ c data ≠ .next s rest := by
  have hcopy : ∀ (ℓ : Locals) (c : Connection σ), copyClose codec ℓ c data ≠ .next s rest := by
    intro ℓ c h
    rw [copyClose_eq] at h
    unfold closeWithBody at h
    dsimp only at h
    split at h
    · cases h
    · split at h <;> cases h
  intro h
  unfold receiveClose at h
  split at h
  · cases h
  · split at h
    · split at h
      · exact hcopy _ _ h
      · exact hcopy _ _ h
    · cases h

theorem turn_progresses (codec : Codec σ) : Progresses (turn codec) turnsLeft := by
  rintro ⟨ℓ, c⟩ data s rest h
  have hmax : turnsLeft s rest ≤ 3 * rest.length + 2 := by
    unfold turnsLeft
    split <;> omega
  have hends : s.1.receiveState = .needHeader ∧ rest.length ≤ data.length → turnsLeft s rest < 3 * data.length + 1 := by
    rintro ⟨hstate, hle⟩
    unfold turnsLeft
    rw [hstate]
    dsimp only
    omega
  have hlength : s.1.receiveState = .needBody ∧ rest.length ≤ data.length → turnsLeft s rest < 3 * data.length + 2 := by
    rintro ⟨hstate, hle⟩
    unfold turnsLeft
    rw [hstate]
    dsimp only
    omega
  cases hstate : ℓ.receiveState
  all_goals
    unfold turn at h
    rw [hstate] at h
    show _ < 3 * data.length + _
    rw [hstate]
  case needHeader =>
    have hlt := needHeader_next h
    dsimp only
    omega
  case needMask => cases h
  case needBody => exact hends (needBody_next h)
  case extendedPayloadLength16 => exact hlength (extendedPayloadLength_next h)
  case extendedPayloadLength64 => exact hlength (extendedPayloadLength_next h)
  case ping => exact hends (receiveControl_next h)
  case pong => exact hends (receiveControl_next h)
  case close => exact absurd h receiveClose_next
  case fail => cases h

/-! ### The local variable that is not kept -/

/-- Of a state between two turns, what the client keeps -/
def kept (s : Locals × Connection σ) : Locals × Connection σ := ({s.1 with isFinal := s.2.receivingIsFinal}, s.2)

theorem turn_kept (hmessage : ¬ℓ.receiveState.isMessage = true) (isFinal : Bool)
    (data : List UInt8) : (turn codec ({ℓ with isFinal := isFinal}, c) data).map kept = (turn codec (ℓ, c) data).map kept := by
  have hend : ∀ (ℓ : Locals) (c : Connection σ) (data : List UInt8),
      (turnEnd {ℓ with isFinal := isFinal} c data).map kept = (turnEnd ℓ c data).map kept := by
    intro ℓ c data
    unfold turnEnd
    split <;> rfl
  have hheader : ∀ (read : Except (Connection σ) (Locals × Connection σ)) (data : List UInt8),
      (behindHeader {ℓ with isFinal := isFinal} read data).map kept = (behindHeader ℓ read data).map kept := by
    intro read data
    cases read <;> rfl
  have hcopy : ∀ (kind : ControlKind σ) (ℓ : Locals) (c : Connection σ),
      (copyControl codec kind {ℓ with isFinal := isFinal} c data).map kept = (copyControl codec kind ℓ c data).map kept := by
    intro kind ℓ c
    rw [copyControl_eq, copyControl_eq]
    split
    · rfl
    · exact hend {ℓ with receiveState := .needHeader, receiveBodyRemain := 0} _ _
  have hcontrol : ∀ kind : ControlKind σ, (receiveControl codec kind {ℓ with isFinal := isFinal} c data).map kept =
      (receiveControl codec kind ℓ c data).map kept := by
    intro kind
    unfold receiveControl
    split
    · split
      · rfl
      · exact hcopy kind {ℓ with receiveBodyRemain := 0} _
    · exact hcopy kind ℓ c
  have hclose : ∀ (ℓ : Locals) (c : Connection σ),
      (copyClose codec {ℓ with isFinal := isFinal} c data).map kept = (copyClose codec ℓ c data).map kept := by
    intro ℓ c
    rw [copyClose_eq, copyClose_eq]
    split
    · rfl
    · unfold closeWithBody
      dsimp only
      split <;> rfl
  unfold turn
  dsimp only
  split
  · unfold needHeader
    split
    · rfl
    · exact hheader _ _
    · rfl
    · exact hheader _ _
  · rfl
  · rename_i hstate
    rw [hstate] at hmessage
    exact absurd rfl hmessage
  · rename_i hstate
    rw [hstate] at hmessage
    exact absurd rfl hmessage
  · exact hcontrol pingKind
  · exact hcontrol pongKind
  · rename_i hstate
    rw [hstate] at hmessage
    exact absurd rfl hmessage
  · unfold receiveClose
    split
    · rfl
    · split
      · split
        · exact hclose {ℓ with receiveBodyRemain := 0} _
        · exact hclose ℓ c
      · rfl
  · rfl

theorem turn_same {s t : Locals × Connection σ} (hs : Sound s) (ht : Sound t) (hst : kept s = kept t) (data : List UInt8) :
    (turn codec s data).map kept = (turn codec t data).map kept := by
  obtain ⟨ℓ, c⟩ := s
  obtain ⟨ℓ', c'⟩ := t
  obtain ⟨hlocals, rfl⟩ := Prod.mk.inj hst
  have hℓ : ℓ = {ℓ' with isFinal := ℓ.isFinal} := by
    rw [Locals.mk.injEq] at hlocals
    obtain ⟨hstate, hkind, hremain, -⟩ := hlocals
    rw [← hstate, ← hkind, ← hremain]
  rw [hℓ]
  by_cases hmessage : ℓ'.receiveState.isMessage = true
  · have hstate : ℓ.receiveState = ℓ'.receiveState := by rw [hℓ]
    have hfinal : ℓ.isFinal = ℓ'.isFinal := (hs.final (hstate ▸ hmessage)).trans (ht.final hmessage).symm
    rw [hfinal]
  · exact turn_kept hmessage _ data

/-! ### Runs -/

namespace Receiver

/-- What holds between two calls -/
def Sound (ws : Receiver σ) : Prop := ws.connection.closeReceived = false → WebSocket.Sound ws.load

/-- A call would go on in a close frame of whose body less than two bytes are there. -/
def CloseCut (ws : Receiver σ) : Prop :=
  ws.connection.closeReceived = false ∧ ws.receiveState = .close ∧ ws.receiveBodyRemain ≤ 1

theorem sound_init (deflate : Option σ) (tunnel : Bool) : (init deflate tunnel).Sound :=
  fun _ => ⟨rfl, rfl, (fun h => by cases h), fun h => by cases h⟩

variable {ws : Receiver σ}

theorem handleData_closed (h : ws.connection.closeReceived = true) (data : List UInt8) :
    ws.handleData codec data = ws := by
  unfold handleData
  rw [if_pos h]

theorem handleData_open (h : ws.connection.closeReceived = false) (data : List UInt8) :
    ws.handleData codec data = ws.save (finish (turn codec) turnsLeft ws.load data) := by
  unfold handleData
  rw [if_neg (by rw [h]; decide)]

theorem kept_sound {s : Locals × Connection σ} (h : WebSocket.Sound s) : WebSocket.Sound (kept s) :=
  ⟨h.pending, h.received, fun _ => rfl, h.buffering⟩

theorem sound_handleData (hws : ws.Sound) (data : List UInt8) : (ws.handleData codec data).Sound := by
  cases hclosed : ws.connection.closeReceived with
  | true =>
    rw [handleData_closed hclosed]
    exact hws
  | false =>
    have hall := finish_keeps (turn_progresses codec) (fun _ data hs => turn_all hs data) _ data (hws hclosed)
    rw [handleData_open hclosed]
    cases hfinish : finish (turn codec) turnsLeft ws.load data with
    | next s rest => exact absurd hfinish (finish_ne_next (turn_progresses codec) _ _ _ _)
    | wait s =>
      rw [hfinish] at hall
      exact fun _ => kept_sound hall
    | stop s => exact fun h => by cases h

/-- Where the loop has come to, its local variable left aside, decides what the client has. -/
theorem save_connection (ws ws' : Receiver σ) {p q : Turn σ} (h : p.map kept = q.map kept) :
    (ws.save p).connection = (ws'.save q).connection := by
  have hkept : ∀ {s t : Locals × Connection σ}, kept s = kept t → s.2 = t.2 := fun h => (Prod.mk.inj h).2
  cases p with
  | next s rest =>
    cases q with
    | next t rest' => exact hkept (Progress.next.inj h).1
    | wait t => cases h
    | stop t => cases h
  | wait s =>
    cases q with
    | next t rest' => cases h
    | wait t => exact hkept (Progress.wait.inj h)
    | stop t => cases h
  | stop s =>
    cases q with
    | next t rest' => cases h
    | wait t => cases h
    | stop t =>
      show ({s.2 with closeReceived := true} : Connection σ) = {t.2 with closeReceived := true}
      rw [hkept (Progress.stop.inj h)]

/-- Two segments in two calls, or in one -/
theorem handleData_join (hws : ws.Sound) {a b : List UInt8} (hb : b ≠ []) (hcut : ¬(ws.handleData codec a).CloseCut) :
    (ws.handleData codec (a ++ b)).connection = ((ws.handleData codec a).handleData codec b).connection := by
  cases hclosed : ws.connection.closeReceived with
  | true => rw [handleData_closed hclosed, handleData_closed hclosed, handleData_closed hclosed]
  | false =>
    have hs := hws hclosed
    have hm := turn_progresses codec
    have hr := turn_resumes codec
    have hall := finish_keeps hm (fun _ data hs => turn_all hs data) _ a hs
    rw [handleData_open hclosed] at hcut ⊢
    rw [handleData_open hclosed]
    cases hfinish : finish (turn codec) turnsLeft ws.load a with
    | next s rest => exact absurd hfinish (finish_ne_next hm _ _ _ _)
    | stop s =>
      rw [(hr.finish_append hm hs hb s).1 hfinish, handleData_closed (show (ws.save (.stop s)).connection.closeReceived = true from rfl)]
    | wait s =>
      rw [hfinish] at hall hcut
      have hsound : WebSocket.Sound s := hall
      have hopen : (ws.save (.wait s)).connection.closeReceived = false := hsound.received
      have hfine : ¬s.1.closeCut := fun h => hcut ⟨hopen, h⟩
      rw [(hr.finish_append hm hs hb s).2 hfinish hfine, handleData_open hopen]
      apply save_connection
      exact finish_same hm (fun _ data hs => turn_all hs data) (fun _ _ data hs ht h => turn_same hs ht h data) s b
        (kept s) hsound (kept_sound hsound) rfl

instance (ws : Receiver σ) : Decidable ws.CloseCut := by
  unfold CloseCut
  infer_instance

end Receiver

/-- **Segments are not seen in what the client tells**, if no call goes on in a close frame of whose body less than two
bytes are there. -/
theorem receive_segments (codec : Codec σ) (deflate : Option σ) (tunnel : Bool) (segments : List (List UInt8))
    (hne : ∀ segment ∈ segments, segment ≠ [])
    (hcut : ∀ k < segments.length, ¬((segments.take k).foldl (Receiver.handleData codec) (.init deflate tunnel)).CloseCut) :
    (segments.foldl (Receiver.handleData codec) (.init deflate tunnel)).connection.events =
      ((Receiver.init deflate tunnel).handleData codec segments.flatten).connection.events := by
  by_cases hnil : segments = []
  · subst hnil
    rfl
  have hflat := @foldl_flatten _ _ _ (Receiver.handleData codec) Receiver.Sound (fun ws => ¬ws.CloseCut)
    Receiver.connection (fun ws x hws => Receiver.sound_handleData hws x)
    (fun ws x y hws _ hy hcut => Receiver.handleData_join hws hy hcut) segments (.init deflate tunnel)
    (Receiver.sound_init deflate tunnel) hnil hne hcut
  rw [hflat]

/-- Without an extension that compresses, and with Lean's own decoder -/
def Codec.reference : Codec Unit where
  convertUtf8ToUtf16le bytes := (String.fromUTF8? bytes.toByteArray).map fun text => Utf16.encode text.toList
  validateUtf8 bytes := bytes.toByteArray.validateUTF8
  decompress deflate _ := (.error .inflateFailed, deflate)

/-- A text in two fragments, cut in its first header and in both bodies, with a ping in between, and a close frame -/
theorem receive_segments_fragments :
    ([[0x01], [2, 65], [66, 0x89, 1], [7, 0x80, 2, 67], [68, 0x88, 2, 3, 0xE8]].foldl
      (Receiver.handleData Codec.reference) (.init none false)).connection.events =
    [.didReceiveBytes [7] .ping, .didReceiveText (.latin1 [65, 66, 67, 68]), .didClose 1000 []] :=
  (receive_segments Codec.reference none false [[0x01], [2, 65], [66, 0x89, 1], [7, 0x80, 2, 67], [68, 0x88, 2, 3, 0xE8]]
    (by decide) (by decide)).trans (by decide)

/-- A close frame that is cut behind its header is taken for one without a body. -/
theorem receive_segments_close_cut :
    ¬∀ segments : List (List UInt8), (∀ segment ∈ segments, segment ≠ []) →
      (segments.foldl (Receiver.handleData Codec.reference) (.init none false)).connection.events =
        ((Receiver.init none false).handleData Codec.reference segments.flatten).connection.events := by
  intro h
  have hcut := h [[0x88, 2], [3, 0xE8]] (by decide)
  revert hcut
  decide

end Funbun.WebSocket
