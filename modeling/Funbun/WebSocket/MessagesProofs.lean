import Funbun.WebSocket.Messages
import Funbun.WebSocket.ReceiveProofs
import Funbun.WebSocket.SendProofs

/-! Every message is told once and as a whole.

Between two frames the client has the fragments of the open message in its receive buffer, and knows its type and whether
it is compressed (`At`). A fragment takes the loop from its header to the next (`fragment_comes`), and so does a control
frame, which leaves the open message alone (`control_comes`). -/
namespace Funbun.WebSocket
open Library Strings
variable {σ : Type} {codec : Codec σ}

/-! ### Headers of a server -/

structure WebsocketHeader.Has (header : WebsocketHeader) (final compressed : Bool) (opcode : Opcode) (len : UInt8) : Prop where
  final : header.final = final
  mask : header.mask = false
  compressed : header.compressed = compressed
  rsv : header.rsv = 0
  opcode : header.opcode = opcode
  len : header.len = len

theorem serverHeader_fields (final compressed : Bool) (op : Opcode) (v : Nat) (hv : v < 128) :
    (WebsocketHeader.fromSlice ((if final then 0x80 else 0) ||| (if compressed then 0x40 else 0) ||| UInt8.ofNat op.toNat)
      (UInt8.ofNat v)).Has final compressed op (UInt8.ofNat v) := by
  have hlow : ∀ v < 128, (UInt8.ofNat v >>> 7 &&& 1 != 0) = false ∧ UInt8.ofNat v &&& 0x7F = UInt8.ofNat v := by
    decide +kernel
  generalize hfirst : (if final then 0x80 else 0) ||| (if compressed then 0x40 else 0) ||| UInt8.ofNat op.toNat = b₀
  obtain ⟨hfinal, hcompressed, hrsv, hopcode⟩ := WebsocketHeader.fromSlice_first b₀ (UInt8.ofNat v)
  obtain ⟨hmask, hlen⟩ := WebsocketHeader.fromSlice_second b₀ (UInt8.ofNat v)
  refine ⟨hfinal.trans ?_, hmask.trans (hlow v hv).1, hcompressed.trans ?_, hrsv.trans ?_, hopcode.trans ?_,
    hlen.trans (hlow v hv).2⟩
  all_goals
    rw [← hfirst]
    cases final <;> cases compressed <;> cases op <;> decide

theorem serverFrame_header (final compressed : Bool) (op : Opcode) (payload : List UInt8) :
    ∃ b₀ b₁, serverFrame final compressed op payload = b₀ :: b₁ :: (lengthBytes payload.length ++ payload) ∧
      (WebsocketHeader.fromSlice b₀ b₁).Has final compressed op (WebsocketHeader.packLength payload.length) := by
  obtain ⟨v, hv, hpack⟩ := packLength_lt payload.length
  refine ⟨_, _, rfl, ?_⟩
  rw [hpack]
  exact serverHeader_fields final compressed op v hv

/-- The state behind the header of a fragment -/
def bodyState (len : UInt8) : ReceiveState :=
  if len ≤ 125 then .needBody
  else if len = 126 then .extendedPayloadLength16
  else if len = 127 then .extendedPayloadLength64
  else .fail

section
variable {header : WebsocketHeader} {final compressed : Bool} {len : UInt8}

theorem parse_message {kind : MessageType} (h : header.Has final compressed kind.opcode len) :
    parseWebsocketHeader header = (bodyState len, compressed) := by
  unfold parseWebsocketHeader bodyState
  rw [h.opcode, h.mask, h.rsv, h.compressed, h.len]
  cases kind <;> rfl

theorem parse_continuation (h : header.Has final false .continue_ len) :
    parseWebsocketHeader header = (bodyState len, false) := by
  unfold parseWebsocketHeader bodyState
  rw [h.opcode, h.mask, h.rsv, h.compressed, h.len]
  rfl

theorem parse_control {kind : ControlType} (h : header.Has final false kind.opcode len) :
    parseWebsocketHeader header = (if kind = .ping then .ping else .pong, false) := by
  unfold parseWebsocketHeader
  rw [h.opcode, h.mask, h.rsv, h.compressed]
  cases kind <;> rfl

/-- Behind the header of a fragment -/
def beginBody (codec : Codec σ) (len : UInt8) (kind : Opcode) (final : Bool) (c : Connection σ) :
    Except (Connection σ) (Locals × Connection σ) :=
  if len = 0 ∧ bodyState len = .needBody ∧ final then
    .ok (⟨.needHeader, kind, 0, final⟩,
      {(c.consume codec [] 0 kind final).2 with receivingCompressed := false, messageIsCompressed := false})
  else .ok (⟨bodyState len, kind, len.toNat, final⟩, c)

/-- The client inside of a message -/
def Connection.within (c : Connection σ) (final compressed : Bool) : Connection σ :=
  {c with receivingIsFinal := final, messageIsCompressed := compressed, receivingCompressed := compressed}

theorem readHeader_message {kind : MessageType} (h : header.Has final compressed kind.opcode len) (ℓ : Locals)
    {c : Connection σ} (hfinal : c.receivingIsFinal = true) (hdeflate : compressed = true → c.deflate.isNone = false) :
    readHeader codec header ℓ c = beginBody codec len kind.opcode final (c.within final compressed) := by
  unfold readHeader beginBody
  rw [parse_message h, h.opcode, h.len, h.final]
  unfold Connection.beginFrame Connection.beginCompression
  rw [h.opcode, h.final]
  cases kind <;> cases compressed <;> simp [MessageType.opcode, hfinal, hdeflate, Connection.within, Opcode.isControl, Opcode.toNat]

theorem readHeader_continuation (h : header.Has final false .continue_ len) (ℓ : Locals) {c : Connection σ}
    (hfinal : c.receivingIsFinal = false) :
    readHeader codec header ℓ c =
      beginBody codec len ℓ.lastReceiveDataType final (c.within final c.messageIsCompressed) := by
  unfold readHeader beginBody
  rw [parse_continuation h, h.opcode, h.len, h.final]
  unfold Connection.beginFrame Connection.beginCompression
  rw [h.opcode, h.final]
  simp [hfinal, Connection.within, Opcode.isControl, Opcode.toNat]

theorem readHeader_control {kind : ControlType} (h : header.Has true false kind.opcode len) (ℓ : Locals) (c : Connection σ) :
    readHeader codec header ℓ c =
      .ok (⟨if kind = .ping then .ping else .pong, ℓ.lastReceiveDataType, len.toNat, true⟩, c) := by
  unfold readHeader
  rw [parse_control h, h.opcode, h.len, h.final]
  unfold Connection.beginFrame Connection.beginCompression
  rw [h.opcode]
  cases kind <;> simp [ControlType.opcode, Opcode.isControl, Opcode.toNat]

end

/-! ### Turns that are watched -/

section
variable {s t : Locals × Connection σ} {data rest : List UInt8}

theorem not_underflowsAt (hpending : s.2.receivePendingChunkLen = 0) (data : List UInt8) : underflowsAt s data = false := by
  have hzero : ∀ data left, s.2.underflows data left = false := by
    intro data left
    unfold Connection.underflows
    rw [hpending]
    exact decide_eq_false fun h => absurd h.2 (Nat.not_lt_zero _)
  unfold underflowsAt
  split
  · exact hzero _ _
  · exact hzero _ _
  · rfl

variable {w : Watched σ}

theorem watched_eq (hpending : w.loop.2.receivePendingChunkLen = 0) (data : List UInt8) :
    watchedTurn codec w data = (turn codec w.loop data).map (⟨·, w.underflow⟩) := by
  unfold watchedTurn
  simp only [not_underflowsAt hpending data, Bool.or_false]

theorem watched_next (hpending : w.loop.2.receivePendingChunkLen = 0)
    (h : turn codec w.loop data = .next t rest) : watchedTurn codec w data = .next ⟨t, w.underflow⟩ rest := by
  rw [watched_eq hpending, h]
  rfl

/-- Between two elements the loop waits, if there is nothing left. -/
theorem watched_idle (hstate : w.loop.1.receiveState = .needHeader)
    (hpending : w.loop.2.receivePendingChunkLen = 0) : watchedTurn codec w [] = .wait w := by
  have hturn : turn codec w.loop [] = .wait w.loop := by
    unfold turn
    rw [hstate]
    show needHeader codec w.loop.1 w.loop.2 [] = _
    unfold needHeader
    split <;> first | rfl | contradiction
  rw [watched_eq hpending, hturn]
  rfl

theorem comes_turnEnd {ℓ : Locals} {c : Connection σ} (hpending : w.loop.2.receivePendingChunkLen = 0)
    (h : turn codec w.loop data = turnEnd ℓ c rest) :
    Comes (watchedTurn codec) w data ⟨(ℓ, c), w.underflow⟩ rest := by
  unfold turnEnd at h
  by_cases hrest : rest = []
  · rw [if_pos hrest] at h
    rw [hrest]
    exact .of_wait (by rw [watched_eq hpending, h]; rfl)
  · rw [if_neg hrest] at h
    exact .of_next (watched_next hpending h)

end

/-! ### Bodies -/

section
variable {c : Connection σ} {kind : Opcode} {final : Bool}

/-- A fragment that is there as a whole -/
theorem consume_whole (hpending : c.receivePendingChunkLen = 0) (payload : List UInt8) :
    (c.consume codec payload payload.length kind final).2 =
      if final then {c with receiveBuffer := c.receiveBuffer ++ payload}.behindBody codec kind
      else {c with receiveBuffer := c.receiveBuffer ++ payload} := by
  by_cases hempty : payload = []
  · subst hempty
    have hsame : ({c with receiveBuffer := c.receiveBuffer ++ []} : Connection σ) = c := by rw [List.append_nil]
    have hzero : ({c with receiveBuffer := c.receiveBuffer ++ [], receivePendingChunkLen := 0} : Connection σ) = c := by
      rw [List.append_nil, ← hpending]
    have hcomplete : (0 ≤ 0 ∧ 0 - 0 - c.receivePendingChunkLen = 0) := ⟨Nat.le_refl _, by rw [hpending]⟩
    unfold Connection.consume Connection.behindBody
    simp only [hsame, hzero, List.length_nil, if_pos hcomplete]
    by_cases hcompressed : c.receivingCompressed = true
    · rw [if_pos hcompressed, if_pos hcompressed]
    · rw [if_neg hcompressed, if_neg hcompressed]
      cases final with
      | false =>
        rw [if_neg fun h => Bool.false_ne_true h.1.1, if_neg fun h => Bool.false_ne_true h.1.1, if_pos trivial]
        rfl
      | true =>
        by_cases hbuffer : c.receiveBuffer = []
        · rw [if_pos ⟨⟨rfl, trivial, hpending⟩, hbuffer⟩, if_pos rfl]
          rw [dispatchData_eq_dispatchBuffer hbuffer hpending [], hsame]
        · rw [if_neg fun h => hbuffer h.2, if_pos ⟨⟨rfl, trivial, hpending⟩, trivial⟩, if_pos rfl]
  · rw [consume_eq hpending hempty]
    simp only [true_and]

theorem length_turn {byteSize n : Nat} (hsize : 0 < byteSize) (hn : 0 < n) (hfits : n < 256 ^ byteSize) (ℓ : Locals)
    (hlength : c.payloadLengthFrameBytes = []) (tail : List UInt8) :
    extendedPayloadLength byteSize ℓ c (beBytes byteSize n ++ tail) =
      .next ({ℓ with receiveState := .needBody, receiveBodyRemain := n}, c) tail := by
  have hbytes := length_beBytes byteSize n
  have hne : beBytes byteSize n ++ tail ≠ [] := by
    intro h
    have h := congrArg List.length h
    rw [List.length_append, hbytes, List.length_nil] at h
    omega
  have hlong : ¬([] : List UInt8).length + (beBytes byteSize n ++ tail).length < byteSize := by
    rw [List.length_append, hbytes, List.length_nil]
    omega
  have htake : (beBytes byteSize n ++ tail).take byteSize = beBytes byteSize n := List.take_left' hbytes
  have hdrop : (beBytes byteSize n ++ tail).drop byteSize = tail := List.drop_left' hbytes
  rw [extendedPayloadLength_eq byteSize ℓ c hne, hlength, if_neg hlong, List.length_nil, Nat.sub_zero, htake, hdrop,
    List.nil_append, List.take_of_length_le (Nat.le_of_eq hbytes)]
  unfold behindLength
  dsimp only
  rw [ofBeBytes_beBytes hfits, if_neg (by omega), ← hlength]

theorem body_turn {ℓ : Locals} {payload : List UInt8} (hremain : ℓ.receiveBodyRemain = payload.length)
    (hsize : c.receiveBuffer.length + payload.length ≤ maxReceiveMessageLength) (rest : List UInt8) :
    needBody codec ℓ c (payload ++ rest) =
      turnEnd {ℓ with receiveBodyRemain := 0, receiveState := .needHeader}
        (c.consume codec payload payload.length ℓ.lastReceiveDataType ℓ.isFinal).2 rest := by
  have hlong : ℓ.receiveBodyRemain ≤ (payload ++ rest).length := by
    rw [hremain, List.length_append]
    exact Nat.le_add_right _ _
  rw [needBody_long ℓ (by rw [hremain]; omega) hlong, hremain, List.take_left' rfl, List.drop_left' rfl]

theorem packLength_eq_zero {n : Nat} (h : WebsocketHeader.packLength n = 0) : n = 0 := by
  unfold WebsocketHeader.packLength at h
  split at h
  · have h := congrArg UInt8.toNat h
    rw [UInt8.toNat_ofNat_of_lt' (Nat.lt_of_le_of_lt ‹_› (by decide))] at h
    exact h
  · split at h <;> cases h

/-- From behind a header to the body -/
theorem length_comes {w u : Watched σ} {payload rest : List UInt8} (hsize : payload.length ≤ maxReceiveMessageLength)
    (hpending : c.receivePendingChunkLen = 0) (hlength : c.payloadLengthFrameBytes = [])
    (hloop : w.loop = (⟨bodyState (WebsocketHeader.packLength payload.length), kind,
      (WebsocketHeader.packLength payload.length).toNat, final⟩, c))
    (hbody : Comes (watchedTurn codec) ⟨(⟨.needBody, kind, payload.length, final⟩, c), w.underflow⟩
      (payload ++ rest) u rest) :
    Comes (watchedTurn codec) w (lengthBytes payload.length ++ (payload ++ rest)) u rest := by
  have hmax : payload.length < 256 ^ 8 := Nat.lt_of_le_of_lt hsize (by decide)
  have hturn : ∀ {state : ReceiveState} {byteSize remain : Nat}, w.loop = (⟨state, kind, remain, final⟩, c) →
      0 < byteSize → 0 < payload.length → payload.length < 256 ^ byteSize →
      turn codec w.loop (beBytes byteSize payload.length ++ (payload ++ rest)) =
        extendedPayloadLength byteSize ⟨state, kind, remain, final⟩ c (beBytes byteSize payload.length ++ (payload ++ rest)) →
      Comes (watchedTurn codec) w (beBytes byteSize payload.length ++ (payload ++ rest)) u rest := by
    intro state byteSize remain hw hbytes hpos hfits hturn
    exact .next (watched_next (by rw [hw]; exact hpending) (hturn.trans (length_turn hbytes hpos hfits _ hlength _))) hbody
  by_cases hshort : payload.length ≤ 125
  · obtain ⟨hbytes, hpack⟩ := lengthBytes_short hshort
    have htoNat : (UInt8.ofNat payload.length).toNat = payload.length :=
      UInt8.toNat_ofNat_of_lt' (Nat.lt_of_le_of_lt hshort (by decide))
    have hstate : bodyState (UInt8.ofNat payload.length) = .needBody := by
      refine if_pos (UInt8.le_iff_toNat_le.2 ?_)
      rw [htoNat]
      exact hshort
    rw [hpack, hstate, htoNat] at hloop
    rw [← hloop] at hbody
    rw [hbytes, List.nil_append]
    exact hbody
  · by_cases hmiddle : payload.length ≤ 0xFFFF
    · obtain ⟨hbytes, hpack⟩ := lengthBytes_middle hshort hmiddle
      rw [hpack] at hloop
      rw [hbytes]
      exact hturn hloop (by omega) (by omega) (by omega) (by rw [hloop]; rfl)
    · obtain ⟨hbytes, hpack⟩ := lengthBytes_long hshort hmiddle
      rw [hpack] at hloop
      rw [hbytes]
      exact hturn hloop (by omega) (by omega) hmax (by rw [hloop]; rfl)

/-- **A fragment**, from its header to the next. -/
theorem fragment_comes {w : Watched σ} {ℓ : Locals} {c c' : Connection σ} {data payload rest : List UInt8}
    (hidle : w.loop.2.receivePendingChunkLen = 0)
    (hturn : turn codec w.loop data =
      behindHeader ℓ (beginBody codec (WebsocketHeader.packLength payload.length) kind final c)
        (lengthBytes payload.length ++ (payload ++ rest)))
    (hpending : c.receivePendingChunkLen = 0) (hlength : c.payloadLengthFrameBytes = [])
    (hsize : c.receiveBuffer.length + payload.length ≤ maxReceiveMessageLength)
    (hconsume : (c.consume codec payload payload.length kind final).2 = c')
    (hclear : final = true → {c' with receivingCompressed := false, messageIsCompressed := false} = c') :
    Comes (watchedTurn codec) w data ⟨(⟨.needHeader, kind, 0, final⟩, c'), w.underflow⟩ rest := by
  by_cases hempty : payload = [] ∧ final = true
  · obtain ⟨hpayload, hfinal⟩ := hempty
    subst hpayload hfinal
    have hbegin : beginBody codec (WebsocketHeader.packLength ([] : List UInt8).length) kind true c =
        .ok (⟨.needHeader, kind, 0, true⟩, c') := by
      show Except.ok (_, _) = _
      rw [← hclear rfl, ← hconsume]
      rfl
    rw [hbegin] at hturn
    exact comes_turnEnd hidle (show turn codec w.loop data = turnEnd _ _ rest from hturn)
  · have hbegin : beginBody codec (WebsocketHeader.packLength payload.length) kind final c =
        .ok (⟨bodyState (WebsocketHeader.packLength payload.length), kind,
          (WebsocketHeader.packLength payload.length).toNat, final⟩, c) := by
      refine if_neg fun h => hempty ⟨List.eq_nil_of_length_eq_zero (packLength_eq_zero h.1), h.2.2⟩
    have hbody : bodyState (WebsocketHeader.packLength payload.length) ≠ .needHeader := by
      unfold bodyState
      split
      · decide
      · split
        · decide
        · split <;> decide
    rw [hbegin] at hturn
    refine .next (watched_next hidle (hturn.trans (if_neg hbody))) (length_comes (by omega) hpending hlength rfl ?_)
    have hlast : Comes (watchedTurn codec) ⟨(⟨.needBody, kind, payload.length, final⟩, c), w.underflow⟩
        (payload ++ rest) _ rest := comes_turnEnd hpending (body_turn rfl hsize rest)
    rw [hconsume] at hlast
    exact hlast

end

/-! ### What is told -/

theorem encodeChar_small {c : Char} (h : ∀ byte ∈ String.utf8EncodeChar c, byte < 0x80) :
    ∃ byte : UInt8, String.utf8EncodeChar c = [byte] ∧ Char.ofNat byte.toNat = c := by
  have hlt : c.val.toNat < 0x110000 := Utf16.toNat_lt c
  unfold String.utf8EncodeChar at h ⊢
  simp only at h ⊢
  split_ifs at h ⊢ with h1 h2 h3
  · refine ⟨_, rfl, ?_⟩
    rw [UInt8.toNat_ofNat_of_lt' (Nat.lt_of_le_of_lt h1 (by decide))]
    exact Char.ofNat_toNat c
  all_goals
    have hlead := UInt8.lt_iff_toNat_lt.1 (h _ List.mem_cons_self)
    rw [UInt8.toNat_ofNat'] at hlead
    exact absurd hlead (by simp only [UInt8.reduceToNat]; omega)

/-- A text whose bytes are all below 0x80 has these for characters. -/
theorem latin1Text_utf8 {text : List Char} (h : ∀ byte ∈ utf8 text, byte < 0x80) : latin1Text (utf8 text) = text := by
  induction text with
  | nil => rfl
  | cons c text ih =>
    have hbytes : utf8 (c :: text) = String.utf8EncodeChar c ++ utf8 text := rfl
    rw [hbytes] at h ⊢
    obtain ⟨byte, hone, hchar⟩ := encodeChar_small fun byte hbyte => h byte (List.mem_append_left _ hbyte)
    have hrest := ih fun byte hbyte => h byte (List.mem_append_right _ hbyte)
    rw [hone]
    show Char.ofNat byte.toNat :: latin1Text (utf8 text) = _
    rw [hchar, hrest]

section
variable {c : Connection σ}

theorem toUtf16Alloc_has (hcodec : codec.Documented) (text : List Char) :
    ∃ str, toUtf16Alloc codec (utf8 text) = some str ∧ str.Has text := by
  unfold toUtf16Alloc
  by_cases hascii : (utf8 text).all (· < 0x80) = true
  · have hsmall : ∀ byte ∈ utf8 text, byte < 0x80 := fun byte h => of_decide_eq_true (List.all_eq_true.1 hascii byte h)
    have hhas := ZigString.Has.latin1 (utf8 text)
    rw [latin1Text_utf8 hsmall] at hhas
    exact ⟨_, if_pos hascii, hhas⟩
  · rw [if_neg hascii, hcodec text]
    exact ⟨_, rfl, .utf16 text⟩

theorem dispatchData_tells (hcodec : codec.Documented) (hout : c.outgoingWebsocket = true) {kind : MessageType}
    {data : List UInt8} {delivery : Delivery} (hmeans : kind.Means data delivery) :
    ∃ event, event.Tells delivery ∧ c.dispatchData codec data kind.opcode = c.tell event := by
  unfold Connection.dispatchData
  rw [hout]
  cases hmeans with
  | text text =>
    obtain ⟨str, hstr, hhas⟩ := toUtf16Alloc_has hcodec text
    refine ⟨.didReceiveText str, .text hhas, ?_⟩
    simp [MessageType.opcode, hstr]
  | binary data => exact ⟨.didReceiveBytes data .binary, .bytes data .binary, rfl⟩

/-- The client behind a message -/
def Connection.told (c : Connection σ) (event : Event) (deflate : Option σ) : Connection σ :=
  {c with
    receiveBuffer := [], receivePendingChunkLen := 0, receivingCompressed := false, messageIsCompressed := false
    deflate := deflate, events := c.events ++ [event]}

theorem behindBody_tells (hcodec : codec.Documented) (hout : c.outgoingWebsocket = true) {m : Message}
    (hcompressed : c.receivingCompressed = m.compressed) (hbuffer : c.receiveBuffer = m.payload) {data : List UInt8}
    {deflate' : Option σ} (hcontent : m.Content codec c.deflate data deflate') {delivery : Delivery}
    (hmeans : m.kind.Means data delivery) :
    ∃ event, event.Tells delivery ∧ c.behindBody codec m.kind.opcode = c.told event deflate' := by
  unfold Connection.behindBody
  rw [hcompressed]
  generalize hdeflate : c.deflate = deflate at hcontent
  cases hcontent with
  | plain hplain =>
    obtain ⟨event, htells, hdispatch⟩ :=
      dispatchData_tells (c := {c with receiveBuffer := []}) hcodec hout hmeans
    refine ⟨event, htells, ?_⟩
    rw [hplain] at hcompressed ⊢
    rw [if_neg Bool.false_ne_true]
    unfold Connection.dispatchBuffer Connection.told
    rw [hbuffer, hdispatch, ← hcompressed, ← hdeflate]
    rfl
  | @inflated _ inflater _ hinflated hdecompress =>
    obtain ⟨event, htells, hdispatch⟩ :=
      dispatchData_tells (c := {c with receiveBuffer := [], deflate := some inflater}) hcodec hout hmeans
    refine ⟨event, htells, ?_⟩
    have hdata : ({c with receiveBuffer := []} : Connection σ).dispatchCompressedData codec m.payload m.kind.opcode =
        ({c with receiveBuffer := [], deflate := some inflater} : Connection σ).tell event := by
      unfold Connection.dispatchCompressedData
      simp only [hdeflate, hdecompress]
      exact hdispatch
    rw [hinflated, if_pos rfl]
    unfold Connection.dispatchCompressedBuffer Connection.told
    rw [hbuffer, hdata]
    rfl

end

/-! ### Between two frames -/

/-- A message of which fragments are still to come -/
structure OpenMessage where
  kind : MessageType
  compressed : Bool
  joined : List UInt8

/-- What the client is between two frames -/
structure At (s : Locals × Connection σ) (opened : Option OpenMessage) (deflate : Option σ) : Prop where
  state : s.1.receiveState = .needHeader
  outgoing : s.2.outgoingWebsocket = true
  tcp : s.2.hasTcp = true
  pending : s.2.receivePendingChunkLen = 0
  pinged : s.2.pingReceived = false
  ponged : s.2.pongReceived = false
  received : s.2.closeReceived = false
  fragment : s.2.headerFragment = none
  lengths : s.2.payloadLengthFrameBytes = []
  deflate : s.2.deflate = deflate
  final : s.2.receivingIsFinal = opened.isNone
  buffer : s.2.receiveBuffer = (opened.map OpenMessage.joined).getD []
  message : ∀ m, opened = some m → s.2.messageIsCompressed = m.compressed ∧ s.1.lastReceiveDataType = m.kind.opcode

/-- What was told and answered between two states, as it is to be -/
structure Watched.Tells (w w' : Watched σ) (deliveries : List Delivery) : Prop where
  events : ∃ events, w'.loop.2.events = w.loop.2.events ++ events ∧ List.Forall₂ Event.Tells events deliveries
  pongs : ∃ pongs, w'.loop.2.pongs = w.loop.2.pongs ++ pongs ∧ List.Forall₂ Answers pongs (deliveries.filterMap Delivery.ping)
  underflow : w'.underflow = w.underflow

namespace Watched.Tells
variable {w w' w'' : Watched σ} {a b : List Delivery}

theorem same (w : Watched σ) : w.Tells w [] := ⟨⟨[], (List.append_nil _).symm, .nil⟩, ⟨[], (List.append_nil _).symm, .nil⟩, rfl⟩

theorem trans (h : w.Tells w' a) (h' : w'.Tells w'' b) : w.Tells w'' (a ++ b) := by
  obtain ⟨⟨events, hevents, htells⟩, ⟨pongs, hpongs, hanswers⟩, hunder⟩ := h
  obtain ⟨⟨events', hevents', htells'⟩, ⟨pongs', hpongs', hanswers'⟩, hunder'⟩ := h'
  refine ⟨⟨events ++ events', ?_, List.rel_append htells htells'⟩, ⟨pongs ++ pongs', ?_, ?_⟩, hunder'.trans hunder⟩
  · rw [hevents', hevents, List.append_assoc]
  · rw [hpongs', hpongs, List.append_assoc]
  · rw [List.filterMap_append]
    exact List.rel_append hanswers hanswers'

end Watched.Tells

/-- One run of the loop over the bytes of frames -/
def Reads (codec : Codec σ) (w : Watched σ) (bytes : List UInt8) (w' : Watched σ) : Prop :=
  ∀ rest, Comes (watchedTurn codec) w (bytes ++ rest) w' rest

variable {opened : Option OpenMessage} {deflate : Option σ} {w : Watched σ}

theorem Reads.trans {w w' w'' : Watched σ} {a b : List UInt8}
    (h : Reads codec w a w') (hat : At w'.loop opened deflate) (h' : Reads codec w' b w'') :
    Reads codec w (a ++ b) w'' := by
  intro rest
  rw [List.append_assoc]
  exact (h (b ++ rest)).trans (watched_idle hat.state hat.pending) (h' rest)

/-! ### Control frames -/

def ControlType.receive : ControlType → ControlKind σ
  | ping => pingKind
  | pong => pongKind

def ControlType.state (kind : ControlType) : ReceiveState := if kind = .ping then .ping else .pong

/-- The client behind a control frame -/
def Connection.behindControl (c : Connection σ) (frame : Control) : Connection σ :=
  let copied := {c with pingFrameBytes := frame.payload, pingLen := frame.payload.length}
  {copied with
    events := c.events ++ [.didReceiveBytes frame.payload frame.kind.opcode]
    pongs := c.pongs ++ if frame.kind = .ping then [copied.pong] else []}

/-- The turn from behind the header of a control frame to the next header -/
theorem control_turn {ℓ : Locals} {c : Connection σ} (frame : Control) (hlength : frame.payload.length ≤ 125)
    (hstate : ℓ.receiveState = frame.kind.state) (hremain : ℓ.receiveBodyRemain = frame.payload.length)
    (hout : c.outgoingWebsocket = true) (htcp : c.hasTcp = true) (hping : c.pingReceived = false)
    (hpong : c.pongReceived = false) (rest : List UInt8) :
    turn codec (ℓ, c) (frame.payload ++ rest) =
      turnEnd {ℓ with receiveState := .needHeader, receiveBodyRemain := 0} (c.behindControl frame) rest := by
  have hturn : turn codec (ℓ, c) (frame.payload ++ rest) =
      receiveControl codec frame.kind.receive ℓ c (frame.payload ++ rest) := by
    unfold turn
    dsimp only
    rw [hstate]
    cases frame.kind <;> rfl
  have hreceived : frame.kind.receive.received c = false := by cases frame.kind <;> assumption
  have hshort : ¬0 + (frame.payload ++ rest).length < frame.payload.length := by
    rw [List.length_append]
    omega
  generalize hcopied : frame.kind.receive.setReceived {c with pingLen := frame.payload.length} true = copied
  have hlen : copied.pingLen = frame.payload.length := by rw [← hcopied]; cases frame.kind <;> rfl
  have htake : (frame.payload ++ rest).take (copied.pingLen - 0) = frame.payload := List.take_left' hlen.symm
  have hdrop : (frame.payload ++ rest).drop (copied.pingLen - 0) = rest := List.drop_left' hlen.symm
  have hdispatch : ({copied with pingFrameBytes := frame.payload} : Connection σ).dispatchData codec
      (frame.payload.take copied.pingLen) (frame.kind.receive : ControlKind σ).opcode =
      ({copied with pingFrameBytes := frame.payload} : Connection σ).tell
        (.didReceiveBytes frame.payload frame.kind.opcode) := by
    have hout' : copied.outgoingWebsocket = true := by rw [← hcopied]; cases frame.kind <;> exact hout
    unfold Connection.dispatchData
    rw [hout', hlen, List.take_length]
    cases frame.kind <;> rfl
  have hanswer : frame.kind.receive.answer (frame.kind.receive.setReceived
      (({copied with pingFrameBytes := frame.payload} : Connection σ).tell
        (.didReceiveBytes frame.payload frame.kind.opcode)) false) = c.behindControl frame := by
    subst hcopied
    unfold Connection.behindControl
    cases frame.kind with
    | ping =>
      refine (if_neg ?_).trans ?_
      · exact fun h => by rw [Bool.not_eq_true'] at h; exact Bool.false_ne_true (h.symm.trans htcp)
      · rw [← hping]; rfl
    | pong =>
      refine Eq.trans ?_ (congrArg (fun pongs => ({c with
        pingFrameBytes := frame.payload, pingLen := frame.payload.length
        events := c.events ++ [.didReceiveBytes frame.payload .pong], pongs := pongs} : Connection σ))
        (List.append_nil c.pongs).symm)
      rw [← hpong]
      rfl
  rw [hturn]
  unfold receiveControl
  rw [hreceived, hremain, if_pos (by rfl), if_neg (by omega), hcopied, copyControl_eq, if_neg (by rw [hlen]; exact hshort),
    htake, hdrop, List.take_zero, List.nil_append]
  show turnEnd _ (frame.kind.receive.answer (frame.kind.receive.setReceived
    (({copied with pingFrameBytes := frame.payload} : Connection σ).dispatchData codec
      (frame.payload.take copied.pingLen) (frame.kind.receive : ControlKind σ).opcode) false)) rest = _
  rw [hdispatch, hanswer]

/-- The pong has the payload of the ping. -/
theorem pong_answers (c : Connection σ) {frame : Control} (hlength : frame.payload.length ≤ 125) :
    Answers ({c with pingFrameBytes := frame.payload, pingLen := frame.payload.length}).pong frame.payload := by
  intro mask
  have hpong : ({c with pingFrameBytes := frame.payload, pingLen := frame.payload.length} : Connection σ).pong mask =
      WebSocket.frame (if 0 < frame.payload.length then mask else Mask.zero) .pong frame.payload := by
    unfold Connection.pong
    dsimp only
    rw [List.take_length]
    exact frame_control _ _ hlength
  rw [hpong]
  exact decodeFrame_one _ _ (Nat.lt_of_le_of_lt hlength (by decide))

/-- **A control frame** changes nothing for the open message. -/
theorem control_reads (hat : At w.loop opened deflate) (frame : Control) (hlength : frame.payload.length ≤ 125) :
    ∃ w', Reads codec w frame.bytes w' ∧ At w'.loop opened deflate ∧ w.Tells w' [frame.delivery] := by
  obtain ⟨b₀, b₁, hbytes, hheader⟩ := serverFrame_header true false frame.kind.opcode frame.payload
  obtain ⟨hshort, hpack⟩ := lengthBytes_short hlength
  have htoNat : (UInt8.ofNat frame.payload.length).toNat = frame.payload.length :=
    UInt8.toNat_ofNat_of_lt' (Nat.lt_of_le_of_lt hlength (by decide))
  have hcontrol : frame.kind.state ≠ .needHeader := by cases frame.kind <;> decide
  let begun : Locals := ⟨frame.kind.state, w.loop.1.lastReceiveDataType, frame.payload.length, true⟩
  let mid : Watched σ := ⟨(begun, w.loop.2), w.underflow⟩
  let ended : Locals × Connection σ :=
    ({begun with receiveState := .needHeader, receiveBodyRemain := 0}, w.loop.2.behindControl frame)
  have hfirst : ∀ rest, watchedTurn codec w (frame.bytes ++ rest) = .next mid (frame.payload ++ rest) := by
    intro rest
    have hread : readHeader codec (.fromSlice b₀ b₁) w.loop.1 w.loop.2 = .ok (begun, w.loop.2) := by
      rw [readHeader_control hheader, hpack, htoNat]
      rfl
    have hturn : turn codec w.loop (frame.bytes ++ rest) = .next (begun, w.loop.2) (frame.payload ++ rest) := by
      unfold turn Control.bytes
      rw [hat.state, hbytes, hshort, List.nil_append]
      show needHeader codec w.loop.1 w.loop.2 (b₀ :: b₁ :: (frame.payload ++ rest)) = _
      unfold needHeader
      rw [hat.fragment]
      show behindHeader _ (readHeader codec (.fromSlice b₀ b₁) w.loop.1 w.loop.2) _ = _
      rw [hread]
      exact if_neg hcontrol
    rw [watched_next hat.pending hturn]
  have hlast : ∀ rest, Comes (watchedTurn codec) mid (frame.payload ++ rest) ⟨ended, w.underflow⟩ rest :=
    fun rest => comes_turnEnd hat.pending
      (control_turn frame hlength rfl rfl hat.outgoing hat.tcp hat.pinged hat.ponged rest)
  refine ⟨⟨ended, w.underflow⟩, fun rest => .next (hfirst rest) (hlast rest), ?_, ?_, ?_, rfl⟩
  · exact ⟨rfl, hat.outgoing, hat.tcp, hat.pending, hat.pinged, hat.ponged, hat.received, hat.fragment, hat.lengths,
      hat.deflate, hat.final, hat.buffer, hat.message⟩
  · exact ⟨[_], rfl, .cons (.bytes _ _) .nil⟩
  · refine ⟨_, rfl, ?_⟩
    unfold Control.delivery
    cases frame.kind with
    | ping => exact .cons (pong_answers _ hlength) .nil
    | pong => exact .nil

/-! ### Fragments -/

section
variable {w : Watched σ} {opened : Option OpenMessage} {deflate : Option σ} {kind : MessageType}
  {final compressed : Bool} {payload frame : List UInt8}

/-- The frame begins a fragment of a message: the first one, or one behind the fragments that are there. -/
structure Begins (codec : Codec σ) (w : Watched σ) (frame : List UInt8) (kind : MessageType) (final compressed : Bool)
    (payload : List UInt8) : Prop where
  header : ∃ b₀ b₁, frame = b₀ :: b₁ :: (lengthBytes payload.length ++ payload) ∧
    readHeader codec (.fromSlice b₀ b₁) w.loop.1 w.loop.2 =
      beginBody codec (WebsocketHeader.packLength payload.length) kind.opcode final (w.loop.2.within final compressed)

theorem begins_message (hat : At w.loop none deflate) (kind : MessageType) (final : Bool) (payload : List UInt8)
    (hdeflate : compressed = true → deflate.isNone = false) :
    Begins codec w (serverFrame final compressed kind.opcode payload) kind final compressed payload := by
  obtain ⟨b₀, b₁, hbytes, hheader⟩ := serverFrame_header final compressed kind.opcode payload
  exact ⟨b₀, b₁, hbytes, readHeader_message hheader _ hat.final (by rw [hat.deflate]; exact hdeflate)⟩

theorem begins_continuation {m : OpenMessage} (hat : At w.loop (some m) deflate) (final : Bool) (payload : List UInt8) :
    Begins codec w (serverFrame final false .continue_ payload) m.kind final m.compressed payload := by
  obtain ⟨b₀, b₁, hbytes, hheader⟩ := serverFrame_header final false .continue_ payload
  obtain ⟨hcompressed, hkind⟩ := hat.message m rfl
  refine ⟨b₀, b₁, hbytes, ?_⟩
  rw [readHeader_continuation hheader _ hat.final, hcompressed, hkind]

theorem Begins.comes (h : Begins codec w frame kind final compressed payload) (hat : At w.loop opened deflate)
    (hsize : w.loop.2.receiveBuffer.length + payload.length ≤ maxReceiveMessageLength) {c' : Connection σ}
    (hconsume : ((w.loop.2.within final compressed).consume codec payload payload.length kind.opcode final).2 = c')
    (hclear : final = true → {c' with receivingCompressed := false, messageIsCompressed := false} = c') :
    Reads codec w frame ⟨(⟨.needHeader, kind.opcode, 0, final⟩, c'), w.underflow⟩ := by
  intro rest
  obtain ⟨b₀, b₁, hbytes, hread⟩ := h.header
  have hturn : turn codec w.loop (frame ++ rest) =
      behindHeader w.loop.1 (beginBody codec (WebsocketHeader.packLength payload.length) kind.opcode final
        (w.loop.2.within final compressed)) (lengthBytes payload.length ++ (payload ++ rest)) := by
    unfold turn
    rw [hat.state, hbytes]
    show needHeader codec w.loop.1 w.loop.2 (b₀ :: b₁ :: (lengthBytes payload.length ++ payload ++ rest)) = _
    unfold needHeader
    rw [hat.fragment]
    show behindHeader _ (readHeader codec (.fromSlice b₀ b₁) w.loop.1 w.loop.2) _ = _
    rw [hread, List.append_assoc]
  have hwithin : (w.loop.2.within final compressed).receivePendingChunkLen = 0 := hat.pending
  exact fragment_comes hat.pending hturn hwithin hat.lengths hsize hconsume hclear

/-- A fragment with others to come -/
theorem Begins.reads_fragment (h : Begins codec w frame kind false compressed payload) (hat : At w.loop opened deflate)
    (hsize : w.loop.2.receiveBuffer.length + payload.length ≤ maxReceiveMessageLength) :
    ∃ w', Reads codec w frame w' ∧
      At w'.loop (some ⟨kind, compressed, w.loop.2.receiveBuffer ++ payload⟩) deflate ∧ w.Tells w' [] := by
  have hcomes := h.comes hat hsize
    (consume_whole (show (w.loop.2.within false compressed).receivePendingChunkLen = 0 from hat.pending) payload)
    (fun h => absurd h Bool.false_ne_true)
  refine ⟨_, hcomes, ?_, ⟨[], (List.append_nil _).symm, .nil⟩, ⟨[], (List.append_nil _).symm, .nil⟩, rfl⟩
  refine ⟨rfl, hat.outgoing, hat.tcp, hat.pending, hat.pinged, hat.ponged, hat.received, hat.fragment, hat.lengths,
    hat.deflate, rfl, rfl, ?_⟩
  intro m hm
  cases hm
  exact ⟨rfl, rfl⟩

/-- The last fragment, which brings the message -/
theorem Begins.reads_last (hcodec : codec.Documented) {m : Message}
    (h : Begins codec w frame m.kind true m.compressed payload) (hat : At w.loop opened deflate)
    (hpayload : w.loop.2.receiveBuffer ++ payload = m.payload) (hsize : m.payload.length ≤ maxReceiveMessageLength)
    {data : List UInt8} {deflate' : Option σ} (hcontent : m.Content codec deflate data deflate') {delivery : Delivery}
    (hmeans : m.kind.Means data delivery) :
    ∃ w', Reads codec w frame w' ∧ At w'.loop none deflate' ∧ w.Tells w' [delivery] := by
  have hwithin : (w.loop.2.within true m.compressed).receivePendingChunkLen = 0 := hat.pending
  have hconsume : ((w.loop.2.within true m.compressed).consume codec payload payload.length m.kind.opcode true).2 = _ :=
    consume_whole hwithin payload
  obtain ⟨event, htells, hbehind⟩ := behindBody_tells
    (c := {w.loop.2.within true m.compressed with receiveBuffer := w.loop.2.receiveBuffer ++ payload}) hcodec
    hat.outgoing rfl hpayload (hat.deflate.symm ▸ hcontent) hmeans
  rw [if_pos rfl] at hconsume
  have hlength : w.loop.2.receiveBuffer.length + payload.length ≤ maxReceiveMessageLength := by
    rw [← hpayload, List.length_append] at hsize
    exact hsize
  have hcomes := h.comes hat hlength (hconsume.trans hbehind) (fun _ => rfl)
  refine ⟨_, hcomes, ?_, ⟨[event], rfl, .cons htells .nil⟩, ⟨[], (List.append_nil _).symm, ?_⟩, rfl⟩
  · exact ⟨rfl, hat.outgoing, hat.tcp, rfl, hat.pinged, hat.ponged, hat.received, hat.fragment, hat.lengths, rfl, rfl, rfl,
      fun _ h => by cases h⟩
  · have hping : delivery.ping = none := by
      generalize m.kind = kind at hmeans
      cases hmeans <;> rfl
    rw [List.filterMap_cons_none hping]
    exact .nil

end

/-! ### Messages -/

section
variable {w : Watched σ} {deflate deflate' : Option σ}

theorem Reads.nil (w : Watched σ) : Reads codec w [] w := fun _ => .same

theorem controls_reads {opened : Option OpenMessage} (hat : At w.loop opened deflate) {controls : List Control}
    (hlength : ∀ frame ∈ controls, frame.payload.length ≤ 125) :
    ∃ w', Reads codec w (controls.flatMap Control.bytes) w' ∧ At w'.loop opened deflate ∧
      w.Tells w' (controls.map Control.delivery) := by
  induction controls generalizing w with
  | nil => exact ⟨w, .nil w, hat, .same w⟩
  | cons frame controls ih =>
    obtain ⟨w₁, hreads₁, hat₁, htells₁⟩ := control_reads hat frame (hlength frame List.mem_cons_self)
    obtain ⟨w₂, hreads₂, hat₂, htells₂⟩ := ih hat₁ fun frame h => hlength frame (List.mem_cons_of_mem _ h)
    exact ⟨w₂, hreads₁.trans hat₁ hreads₂, hat₂, htells₁.trans htells₂⟩

variable {m : Message} {data : List UInt8} {delivery : Delivery} (hcodec : codec.Documented)
  (hsize : m.payload.length ≤ maxReceiveMessageLength) (hcontent : m.Content codec deflate data deflate')
  (hmeans : m.kind.Means data delivery)
include hcodec hsize hcontent hmeans

/-- Induction on the fragments that are still to come. -/
theorem continuations_reads {more : List (List Control × List UInt8)} {joined : List UInt8} (hmore : more ≠ [])
    (hat : At w.loop (some ⟨m.kind, m.compressed, joined⟩) deflate) (hpayload : joined ++ more.flatMap Prod.snd = m.payload)
    (hlength : ∀ frame ∈ more.flatMap Prod.fst, frame.payload.length ≤ 125) :
    ∃ w', Reads codec w (continuations more) w' ∧ At w'.loop none deflate' ∧
      w.Tells w' ((more.flatMap Prod.fst).map Control.delivery ++ [delivery]) := by
  induction more generalizing w joined with
  | nil => exact absurd rfl hmore
  | cons first more ih =>
    obtain ⟨controls, payload⟩ := first
    rw [List.flatMap_cons] at hpayload hlength
    obtain ⟨w₁, hreads₁, hat₁, htells₁⟩ := controls_reads hat fun frame h => hlength frame (List.mem_append_left _ h)
    have hbuffer : w₁.loop.2.receiveBuffer = joined := hat₁.buffer
    rw [List.flatMap_cons, List.map_append, List.append_assoc]
    cases more with
    | nil =>
      obtain ⟨w₂, hreads₂, hat₂, htells₂⟩ := (begins_continuation hat₁ true payload).reads_last hcodec hat₁
        (by rw [hbuffer, ← hpayload]; simp) hsize hcontent hmeans
      refine ⟨w₂, hreads₁.trans hat₁ ?_, hat₂, htells₁.trans htells₂⟩
      show Reads codec w₁ (serverFrame true false .continue_ payload ++ []) w₂
      rw [List.append_nil]
      exact hreads₂
    | cons second more =>
      have hle : joined.length + payload.length ≤ maxReceiveMessageLength := by
        rw [← hpayload, List.length_append, List.length_append] at hsize
        dsimp only at hsize
        omega
      obtain ⟨w₂, hreads₂, hat₂, htells₂⟩ := (begins_continuation hat₁ false payload).reads_fragment hat₁
        (by rw [hbuffer]; exact hle)
      rw [hbuffer] at hat₂
      obtain ⟨w₃, hreads₃, hat₃, htells₃⟩ := ih (List.cons_ne_nil _ _) hat₂ (by rw [List.append_assoc]; exact hpayload)
        fun frame h => hlength frame (List.mem_append_right _ h)
      exact ⟨w₃, hreads₁.trans hat₁ (hreads₂.trans hat₂ hreads₃), hat₃, htells₁.trans (htells₂.trans htells₃)⟩

/-- **A message** is told once, where its last fragment ends. -/
theorem message_reads (hat : At w.loop none deflate) (hlength : ∀ frame ∈ m.controls, frame.payload.length ≤ 125) :
    ∃ w', Reads codec w m.bytes w' ∧ At w'.loop none deflate' ∧
      w.Tells w' (m.controls.map Control.delivery ++ [delivery]) := by
  have hbuffer : w.loop.2.receiveBuffer = [] := hat.buffer
  have hdeflate : m.compressed = true → deflate.isNone = false := by
    intro hcompressed
    cases hcontent with
    | plain h => rw [h] at hcompressed; cases hcompressed
    | inflated => rfl
  obtain ⟨kind, compressed, first, more⟩ := m
  cases more with
  | nil =>
    obtain ⟨w', hreads, hat', htells⟩ := (begins_message hat kind true first hdeflate).reads_last hcodec hat
      (by rw [hbuffer]; exact (List.append_nil first).symm) hsize hcontent hmeans
    refine ⟨w', ?_, hat', htells⟩
    show Reads codec w (serverFrame true compressed kind.opcode first ++ []) w'
    rw [List.append_nil]
    exact hreads
  | cons second more =>
    have hle : first.length ≤ maxReceiveMessageLength := by
      change (first ++ _).length ≤ _ at hsize
      rw [List.length_append] at hsize
      omega
    obtain ⟨w₁, hreads₁, hat₁, htells₁⟩ := (begins_message hat kind false first hdeflate).reads_fragment hat
      (by rw [hbuffer]; exact (Nat.zero_add _).symm ▸ hle)
    rw [hbuffer] at hat₁
    obtain ⟨w₂, hreads₂, hat₂, htells₂⟩ := continuations_reads hcodec hsize hcontent hmeans (List.cons_ne_nil _ _) hat₁
      rfl hlength
    exact ⟨w₂, hreads₁.trans hat₁ hreads₂, hat₂, htells₁.trans htells₂⟩

end

/-! ### Streams -/

/-- **A stream**, element by element. -/
theorem stream_reads (hcodec : codec.Documented) {stream : List Element} {deliveries : List Delivery}
    {deflate deflate' : Option σ} (h : Means codec deflate stream deliveries deflate') (hat : At w.loop none deflate) :
    ∃ w', Reads codec w (stream.flatMap Element.bytes) w' ∧ At w'.loop none deflate' ∧ w.Tells w' deliveries := by
  induction h generalizing w with
  | nil => exact ⟨w, .nil w, hat, .same w⟩
  | control hc _ ih =>
    obtain ⟨w₁, hreads₁, hat₁, htells₁⟩ := control_reads hat _ hc
    obtain ⟨w₂, hreads₂, hat₂, htells₂⟩ := ih hat₁
    exact ⟨w₂, hreads₁.trans hat₁ hreads₂, hat₂, htells₁.trans htells₂⟩
  | message hsize hcontrols hcontent hmeans _ ih =>
    obtain ⟨w₁, hreads₁, hat₁, htells₁⟩ := message_reads hcodec hsize hcontent hmeans hat hcontrols
    obtain ⟨w₂, hreads₂, hat₂, htells₂⟩ := ih hat₁
    have htells := htells₁.trans htells₂
    rw [List.append_assoc] at htells
    exact ⟨w₂, hreads₁.trans hat₁ hreads₂, hat₂, htells⟩

/-- A stream that is valid is valid up to any of its elements. -/
theorem Means.split {deflate deflate'' : Option σ} {before after : List Element} {deliveries : List Delivery}
    (h : Means codec deflate (before ++ after) deliveries deflate'') :
    ∃ deliveries₁ deliveries₂ deflate', Means codec deflate before deliveries₁ deflate' ∧
      Means codec deflate' after deliveries₂ deflate'' ∧ deliveries = deliveries₁ ++ deliveries₂ := by
  induction before generalizing deflate deliveries with
  | nil => exact ⟨[], deliveries, deflate, .nil deflate, h, rfl⟩
  | cons element before ih =>
    cases h with
    | control hc h =>
      obtain ⟨d₁, d₂, deflate', h₁, h₂, rfl⟩ := ih h
      exact ⟨_, d₂, deflate', .control hc h₁, h₂, rfl⟩
    | message hsize hcontrols hcontent hmeans h =>
      obtain ⟨d₁, d₂, deflate', h₁, h₂, rfl⟩ := ih h
      exact ⟨_, d₂, deflate', .message hsize hcontrols hcontent hmeans h₁, h₂, (List.append_assoc _ (_ :: d₁) d₂).symm⟩

/-- A client between two messages -/
def Receiver.Idle (ws : Receiver σ) : Prop := At ws.load none ws.connection.deflate

theorem Receiver.idle_init (deflate : Option σ) (tunnel : Bool) : (Receiver.init deflate tunnel).Idle where
  state := rfl
  outgoing := rfl
  tcp := by cases tunnel <;> rfl
  pending := rfl
  pinged := rfl
  ponged := rfl
  received := rfl
  fragment := rfl
  lengths := rfl
  deflate := rfl
  final := rfl
  buffer := rfl
  message _ h := by cases h

/-- The local variables are loaded from where they were saved. -/
theorem At.save {s : Locals × Connection σ} (h : At s none deflate) (ws : Receiver σ) :
    (ws.save (.wait s)).Idle :=
  ⟨h.state, h.outgoing, h.tcp, h.pending, h.pinged, h.ponged, h.received, h.fragment, h.lengths, rfl, h.final, h.buffer,
    fun _ h => by cases h⟩

/-- **Messages are reassembled exactly.** A valid stream in one segment, on a client between two messages: each message
and each control frame is told once and in order, each ping is answered with its payload, nothing goes below zero, and the
receive buffer is empty behind each element. -/
theorem handleData_reassembles (hcodec : codec.Documented) {ws : Receiver σ} (hidle : ws.Idle)
    {stream : List Element} {deliveries : List Delivery} {deflate : Option σ}
    (h : Means codec ws.connection.deflate stream deliveries deflate) :
    ∃ events pongs w, (ws.handleData codec (stream.flatMap Element.bytes)).connection.events = ws.connection.events ++ events ∧
      List.Forall₂ Event.Tells events deliveries ∧
      (ws.handleData codec (stream.flatMap Element.bytes)).connection.pongs = ws.connection.pongs ++ pongs ∧
      List.Forall₂ Answers pongs (deliveries.filterMap Delivery.ping) ∧
      ws.watch codec (stream.flatMap Element.bytes) = .wait w ∧ w.underflow = false ∧
      (ws.handleData codec (stream.flatMap Element.bytes)).Idle ∧
      ∀ before after, stream = before ++ after →
        ∃ w', Comes (watchedTurn codec) ⟨ws.load, false⟩ (stream.flatMap Element.bytes) w'
          (after.flatMap Element.bytes) ∧ w'.loop.2.receiveBuffer = [] := by
  obtain ⟨w, hreads, hat, htells⟩ := stream_reads hcodec h (w := ⟨ws.load, false⟩) hidle
  obtain ⟨⟨events, hevents, hdeliveries⟩, ⟨pongs, hpongs, hanswers⟩, hunder⟩ := htells
  have hcomes := hreads []
  rw [List.append_nil] at hcomes
  have hwatch : ws.watch codec (stream.flatMap Element.bytes) = .wait w :=
    hcomes.finish_wait ((turn_progresses codec).watched (watchedTurn_loop codec))
      (watched_idle hat.state hat.pending)
  have hloop := ws.watch_loop codec (stream.flatMap Element.bytes)
  rw [hwatch] at hloop
  have hdata : ws.handleData codec (stream.flatMap Element.bytes) = ws.save (.wait w.loop) := by
    rw [Receiver.handleData_open hidle.received, ← hloop]
    rfl
  refine ⟨events, pongs, w, ?_, hdeliveries, ?_, hanswers, hwatch, hunder, ?_, ?_⟩
  · rw [hdata]
    exact hevents
  · rw [hdata]
    exact hpongs
  · rw [hdata]
    exact hat.save ws
  · intro before after hsplit
    subst hsplit
    obtain ⟨_, _, _, hbefore, -, -⟩ := h.split
    obtain ⟨w', hreads', hat', -⟩ := stream_reads hcodec hbefore (w := ⟨ws.load, false⟩) hidle
    refine ⟨w', ?_, hat'.buffer⟩
    rw [List.flatMap_append]
    exact hreads' _

theorem Codec.reference_documented : Codec.reference.Documented := by
  intro text
  have hvalid : (utf8 text).toByteArray.IsValidUTF8 := ByteArray.isValidUTF8_utf8Encode
  have hstring : String.fromUTF8? (utf8 text).toByteArray = some (String.ofList text) := by
    unfold String.fromUTF8?
    rw [dif_pos hvalid]
    rfl
  show (String.fromUTF8? (utf8 text).toByteArray).map (fun text => Utf16.encode text.toList) = _
  rw [hstring, Option.map_some, String.toList_ofList]

/-- With an extension that compresses, as far as the one compressed message of the stream below needs it -/
def Codec.hello : Codec Unit :=
  {Codec.reference with
    decompress := fun deflate data =>
      (if data = [0xF2, 0x48, 0xCD, 0xC9, 0xC9, 0x07, 0x00] then .ok (utf8 ['H', 'e', 'l', 'l', 'o'])
        else .error .inflateFailed, deflate)}

theorem Codec.hello_documented : Codec.hello.Documented := Codec.reference_documented

/-- A text in four fragments, of which two are empty, with two pings in between, a compressed text in two fragments, a
pong, and an empty message -/
def mixed : List Element :=
  [.message ⟨.text, false, [],
      [([⟨.ping, [7]⟩], utf8 ['A', 'é']), ([], utf8 ['B']), ([⟨.ping, []⟩], [])]⟩,
    .message ⟨.text, true, [0xF2, 0x48, 0xCD], [([], [0xC9, 0xC9, 0x07, 0x00])]⟩,
    .control ⟨.pong, [9]⟩, .message ⟨.binary, false, [], []⟩]

theorem mixed_means :
    Means Codec.hello (some ()) mixed
      [.bytes [7] .ping, .bytes [] .ping, .text ['A', 'é', 'B'], .text ['H', 'e', 'l', 'l', 'o'], .bytes [9] .pong,
        .bytes [] .binary] (some ()) := by
  have hempty : Means Codec.hello (some ()) [.message ⟨.binary, false, [], []⟩] [.bytes [] .binary] (some ()) :=
    .message (by decide) (by decide) (.plain rfl _) (.binary []) (.nil (some ()))
  have hpong := Means.control (c := ⟨.pong, [9]⟩) (by decide) hempty
  have hhello : Message.Content Codec.hello ⟨.text, true, [0xF2, 0x48, 0xCD], [([], [0xC9, 0xC9, 0x07, 0x00])]⟩
      (some ()) (utf8 ['H', 'e', 'l', 'l', 'o']) (some ()) := .inflated rfl rfl
  have hcompressed := Means.message (by decide) (by decide) hhello (.text _) hpong
  have htext : Message.Content Codec.hello
      ⟨.text, false, [], [([⟨.ping, [7]⟩], utf8 ['A', 'é']), ([], utf8 ['B']), ([⟨.ping, []⟩], [])]⟩
      (some ()) (utf8 ['A', 'é', 'B']) (some ()) := .plain rfl _
  exact Means.message (by decide) (by decide) htext (.text _) hcompressed

theorem handleData_reassembles_mixed :
    ∃ events pongs w, ((Receiver.init (some ()) false).handleData Codec.hello (mixed.flatMap Element.bytes)).connection.events =
        [] ++ events ∧
      List.Forall₂ Event.Tells events
        [.bytes [7] .ping, .bytes [] .ping, .text ['A', 'é', 'B'], .text ['H', 'e', 'l', 'l', 'o'], .bytes [9] .pong,
          .bytes [] .binary] ∧
      ((Receiver.init (some ()) false).handleData Codec.hello (mixed.flatMap Element.bytes)).connection.pongs =
        [] ++ pongs ∧
      List.Forall₂ Answers pongs [[7], []] ∧
      (Receiver.init (some ()) false).watch Codec.hello (mixed.flatMap Element.bytes) = .wait w ∧ w.underflow = false ∧
      ((Receiver.init (some ()) false).handleData Codec.hello (mixed.flatMap Element.bytes)).Idle ∧
      ∀ before after, mixed = before ++ after →
        ∃ w', Comes (watchedTurn Codec.hello) ⟨(Receiver.init (some ()) false).load, false⟩
          (mixed.flatMap Element.bytes) w' (after.flatMap Element.bytes) ∧ w'.loop.2.receiveBuffer = [] :=
  handleData_reassembles Codec.hello_documented (Receiver.idle_init (some ()) false) mixed_means

end Funbun.WebSocket
