import Funbun.Library.Outbox
import Funbun.WebSocket.Send

/-! Frames leave whole and in order.

The bytes that the transport has taken and those in the send buffer are an outbox. `enqueueEncodedBytes_sends` says when
a frame joins it at its end: over a socket always, through a tunnel only while the send buffer is empty. -/
namespace Funbun.WebSocket
open Library Strings

namespace Client

def outbox (ws : Client) : Outbox UInt8 := ⟨ws.wire, ws.sendBuffer⟩

def withOutbox (ws : Client) (o : Outbox UInt8) : Client := {ws with wire := o.taken, sendBuffer := o.queue}

/-- The bytes join the outbox, and nothing else happens. -/
def Sends (ws : Client) (bytes : List UInt8) (result : Bool × Client) : Prop :=
  ∃ o : Outbox UInt8, o.all = ws.outbox.all ++ bytes ∧ result = (true, ws.withOutbox o)

/-- The client after it -/
def Joins (ws : Client) (bytes : List UInt8) (ws' : Client) : Prop :=
  ∃ o : Outbox UInt8, o.all = ws.outbox.all ++ bytes ∧ ws' = ws.withOutbox o

theorem Sends.joins {ws : Client} {bytes : List UInt8} {result : Bool × Client} (h : ws.Sends bytes result) :
    ws.Joins bytes result.2 := by
  obtain ⟨o, hall, heq⟩ := h
  exact ⟨o, hall, congrArg Prod.snd heq⟩

@[simp] theorem outbox_withOutbox (ws : Client) (o : Outbox UInt8) : (ws.withOutbox o).outbox = o := rfl

variable {t : Transport} {simd : Simdutf} {ws : Client} {n : Nat}

theorem write_eq (hn : t.accept = some n) (ws : Client) (bytes : List UInt8) :
    ws.write t bytes = some (min n bytes.length, {ws with wire := ws.wire ++ bytes.take n}) := by
  unfold write
  rw [hn]
  rfl

theorem drop_min (bytes : List UInt8) (n : Nat) : bytes.drop (min n bytes.length) = bytes.drop n := by
  rcases Nat.le_total n bytes.length with h | h
  · rw [Nat.min_eq_left h]
  · rw [Nat.min_eq_right h, List.drop_length, List.drop_eq_nil_of_le h]

/-- The send buffer is flushed as far as the transport takes it. -/
theorem sendBufferOut_flush (hn : t.accept = some n) (htcp : ws.hasTcp = true) :
    ws.sendBufferOut t = (true, ws.withOutbox (ws.outbox.flush n)) := by
  have hopen : (!ws.proxyTunnel && ws.tcp.isClosed) = false := by
    unfold hasTcp at htcp
    cases htunnel : ws.proxyTunnel with
    | true => rfl
    | false =>
      rw [htunnel] at htcp
      simp only [Bool.false_or, Bool.and_eq_true, Bool.not_eq_true'] at htcp
      rw [htcp.1]
      rfl
  unfold sendBufferOut
  rw [hopen, write_eq hn]
  show (true, {ws with wire := _, sendBuffer := ws.sendBuffer.drop (min n ws.sendBuffer.length)}) = _
  rw [drop_min]
  rfl

/-- What goes through the send buffer keeps the order. -/
theorem sendData_sends (hn : t.accept = some n) (htcp : ws.hasTcp = true) (bytes : Copy) (doWrite : Bool) (opcode : Opcode) :
    ws.Sends (bytes.copy simd t.entropy (bytes.contentByteLen simd) opcode) (ws.sendData t simd bytes doWrite opcode) := by
  generalize hcopy : bytes.copy simd t.entropy (bytes.contentByteLen simd) opcode = content
  have hpush : ({ws with sendBuffer := ws.sendBuffer ++ content} : Client) = ws.withOutbox (ws.outbox.push content) := rfl
  unfold sendData
  simp only [hcopy, hpush]
  cases doWrite with
  | true =>
    have hflush := sendBufferOut_flush hn (show (ws.withOutbox (ws.outbox.push content)).hasTcp = true from htcp)
    refine ⟨(ws.outbox.push content).flush n, by simp, ?_⟩
    rw [if_pos rfl, hflush]
    rfl
  | false => exact ⟨ws.outbox.push content, by simp, rfl⟩

/-- What is left of a direct write waits behind an empty send buffer. -/
theorem rest_sends (simd : Simdutf) (hempty : ws.sendBuffer = []) (bytes : List UInt8) (n : Nat) :
    ws.Sends bytes (true, (({ws with wire := ws.wire ++ bytes.take n} : Client).copyToSendBuffer t simd (bytes.drop n) false).2) :=
  ⟨ws.outbox.offer bytes n, Outbox.all_offer hempty bytes n, rfl⟩

theorem whole_sends (hempty : ws.sendBuffer = []) {bytes : List UInt8} {n : Nat} (h : bytes.length ≤ n) :
    ws.Sends bytes (true, {ws with wire := ws.wire ++ bytes.take n}) := by
  refine ⟨⟨ws.wire ++ bytes, []⟩, ?_, ?_⟩
  · show (ws.wire ++ bytes) ++ [] = (ws.wire ++ ws.sendBuffer) ++ bytes
    rw [hempty, List.append_nil, List.append_nil]
  · rw [List.take_of_length_le h]
    show _ = (true, ({ws with wire := ws.wire ++ bytes, sendBuffer := []} : Client))
    rw [← hempty]

/-- A frame joins the outbox, unless it is written through a tunnel past what waits. -/
theorem enqueueEncodedBytes_sends (simd : Simdutf) (hn : t.accept = some n) (htcp : ws.hasTcp = true)
    (htunnel : ws.proxyTunnel = true → ws.sendBuffer = []) (bytes : List UInt8) :
    ws.Sends bytes (ws.enqueueEncodedBytes t simd bytes) := by
  unfold enqueueEncodedBytes
  rw [write_eq hn]
  by_cases hproxy : ws.proxyTunnel = true
  · rw [if_pos hproxy]
    show ws.Sends bytes (if min n bytes.length < bytes.length then _ else _)
    split
    · rw [drop_min]
      exact rest_sends simd (htunnel hproxy) bytes n
    · exact whole_sends (htunnel hproxy) (by omega)
  · rw [if_neg hproxy]
    by_cases hback : ws.hasBackpressure t = true
    · rw [hback]
      exact sendData_sends hn htcp (.raw bytes) true .binary
    · have hempty : ws.sendBuffer = [] := by
        unfold hasBackpressure at hback
        simp only [Bool.or_eq_true, decide_eq_true_eq, not_or, Nat.not_lt, Nat.le_zero] at hback
        exact List.eq_nil_of_length_eq_zero hback.1
      rw [Bool.not_eq_true] at hback
      rw [hback]
      show ws.Sends bytes (if min n bytes.length = bytes.length then _ else _)
      split
      · exact whole_sends hempty (by omega)
      · rw [drop_min]
        exact rest_sends simd hempty bytes n

/-- Without backpressure nothing waits. -/
theorem empty_of_hasBackpressure (h : ws.hasBackpressure t = false) : ws.sendBuffer = [] := by
  unfold hasBackpressure at h
  simp only [Bool.or_eq_false_iff, decide_eq_false_iff_not, Nat.not_lt, Nat.le_zero] at h
  exact List.eq_nil_of_length_eq_zero h.1

/-! ### What each call sends -/

section Calls
variable (hn : t.accept = some n) (htcp : ws.hasTcp = true)
include hn htcp

/-- A frame that is copied at once, or that goes through the send buffer -/
theorem copy_joins {bytes : Copy} {opcode : Opcode} {content : List UInt8} {fast : Bool}
    (hfast : fast = true → ws.hasBackpressure t = false)
    (hcontent : bytes.copy simd t.entropy (bytes.contentByteLen simd) opcode = content) (doWrite : Bool) :
    ws.Joins content
      (if fast then (ws.enqueueEncodedBytes t simd content).2 else (ws.sendData t simd bytes doWrite opcode).2) := by
  cases fast with
  | true => exact (enqueueEncodedBytes_sends simd hn htcp (fun _ => empty_of_hasBackpressure (hfast rfl)) content).joins
  | false => exact hcontent ▸ (sendData_sends hn htcp bytes doWrite opcode).joins

theorem writeBytes_joins (hsimd : simd.Documented) (slice : List UInt8) (opcode : Opcode) :
    ws.Joins (frame t.entropy opcode slice) (ws.writeBytes t simd slice opcode) := by
  have hhas : (Copy.bytes slice).Has simd slice := .bytes slice
  have hcontent := hhas.copy_eq hsimd (.inl rfl) t.entropy opcode
  unfold writeBytes
  show ws.Joins _ (if _ then (ws.enqueueEncodedBytes t simd ((Copy.bytes slice).copy simd t.entropy
    ((Copy.bytes slice).contentByteLen simd) opcode)).2 else _)
  rw [hcontent]
  apply copy_joins hn htcp _ hcontent
  intro hfast
  rw [Bool.and_eq_true, Bool.not_eq_true'] at hfast
  exact hfast.1

theorem writeString_joins (hsimd : simd.Documented) {str : ZigString} {text : List Char} (hstr : str.Has text)
    (htag : ∀ slice, str ≠ .utf8 slice) (hpacked : Packed (utf8 text).length) (op : UInt8) :
    ws.Joins (frame t.entropy (.fromRaw (op &&& 0x0F)) (utf8 text)) (ws.writeString t simd str op) := by
  have hhas : (stringCopy str).Has simd (utf8 text) := by
    cases hstr with
    | latin1 slice => exact .latin1 slice
    | utf8 text => exact absurd rfl (htag _)
    | utf16 text => exact .utf16 text
  have hcontent := hhas.copy_eq hsimd (.inr hpacked) t.entropy (.fromRaw (op &&& 0x0F))
  unfold writeString
  rw [htcp]
  show ws.Joins _ (if ws.stringFits t simd str = true then _ else _)
  rw [hcontent]
  apply copy_joins hn htcp _ hcontent
  intro hfast
  cases hstr <;> simp only [stringFits, Bool.and_eq_true, Bool.not_eq_true'] at hfast
  · exact hfast.2.1
  · exact hfast.2.1
  · exact hfast.2

theorem sendPong_joins (simd : Simdutf) (htunnel : ws.proxyTunnel = true → ws.sendBuffer = []) (hlength : ws.ping.length ≤ 125) :
    ∃ mask, ws.Joins (frame mask .pong ws.ping) (ws.sendPong t simd) := by
  refine ⟨if 0 < ws.ping.length then t.entropy else Mask.zero, ?_⟩
  unfold sendPong
  rw [htcp, ← frame_control _ _ hlength]
  exact (enqueueEncodedBytes_sends simd hn htcp htunnel _).joins

/-- The frame of a close has the code and a reason of at most 123 bytes. The send buffer is dropped behind it. -/
theorem sendCloseWithBody_eq (hsimd : simd.Documented) (htunnel : ws.proxyTunnel = true → ws.sendBuffer = [])
    (code : UInt16) {reason : List Char} (hlength : (utf8 reason).length ≤ 123) :
    ∃ ws', ws.Joins (frame t.entropy .close (beBytes 2 code.toNat ++ utf8 reason)) ws' ∧
      ws.sendCloseWithBody t simd code (utf8 reason) = ws'.clearData.dispatchClose := by
  have htake : (utf8 reason).take 123 = utf8 reason := List.take_of_length_le hlength
  have hpayload : (beBytes 2 code.toNat ++ utf8 reason).length = (utf8 reason).length + 2 := by
    rw [List.length_append, length_beBytes, Nat.add_comm]
  have hframe : (controlHeader .close ((utf8 reason).length + 2)).slice ++ t.entropy.bytes ++
      t.entropy.fill (beBytes 2 code.toNat ++ utf8 reason) = frame t.entropy .close (beBytes 2 code.toNat ++ utf8 reason) := by
    rw [← hpayload]
    exact frame_control _ _ (by omega)
  have hsends := enqueueEncodedBytes_sends simd hn htcp htunnel (frame t.entropy .close (beBytes 2 code.toNat ++ utf8 reason))
  obtain ⟨o, hall, heq⟩ := hsends
  refine ⟨ws.withOutbox o, ⟨o, hall, rfl⟩, ?_⟩
  unfold sendCloseWithBody
  simp only [htake, htcp, hsimd.validateUtf8, hframe, heq, Bool.not_true, Bool.and_false]
  rfl

end Calls

theorem receivePing_eq (hout : ws.outgoingWebsocket = true) (payload : List UInt8) :
    ws.receivePing t simd payload = Client.sendPong t simd {ws with ping := payload} := by
  show (if ws.outgoingWebsocket then _ else _ : Client).sendPong t simd = _
  rw [if_pos hout]

/-- A reason that fits a close frame is encoded. -/
theorem encodeReason_eq (hsimd : simd.Documented) {str : ZigString} {text : List Char} (hstr : str.Has text)
    (hlength : (utf8 text).length ≤ 123) : encodeReason simd str = some (utf8 text) := by
  cases hstr with
  | latin1 slice =>
    have hcopy := copyLatin1IntoUtf8_exact (Nat.le_trans hlength (by decide : 123 ≤ 128))
    show (if (copyLatin1IntoUtf8 128 slice).1 < slice.length then none else some (copyLatin1IntoUtf8 128 slice).2) = _
    rw [hcopy, if_neg (Nat.lt_irrefl _)]
  | utf8 text => exact if_pos (Nat.le_trans hlength (by decide))
  | utf16 text =>
    show (if (toUtf8Alloc simd (Utf16.encode text)).length ≤ 128 then some (toUtf8Alloc simd _) else none) = _
    rw [toUtf8Alloc_encode hsimd]
    exact if_pos (Nat.le_trans hlength (by decide))

end Client

/-! ### Whole runs -/

namespace Call

/-- The frame that a call stands for -/
inductive Sends : Call → Opcode → List UInt8 → Prop
  | writeBinaryData (slice : List UInt8) (op : UInt8) : Sends (.writeBinaryData slice op) (.fromRaw op) slice
  | writeBlob (data : List UInt8) (op : UInt8) : Sends (.writeBlob (some data) op) (.fromRaw op) data
  | writeString {str : ZigString} {text : List Char} (h : str.Has text) (op : UInt8) :
    Sends (.writeString str op) (.fromRaw (op &&& 0x0F)) (utf8 text)
  | close (code : UInt16) : Sends (.close code none) .close (beBytes 2 code.toNat)
  | closeReason {str : ZigString} {text : List Char} (h : str.Has text) (code : UInt16) :
    Sends (.close code (some str)) .close (beBytes 2 code.toNat ++ utf8 text)
  | receivePing (payload : List UInt8) : Sends (.receivePing payload) .pong payload

/-- What the callers promise: opcodes of four bits, blobs, texts, pings of a control frame, and slices of a length that
a machine has -/
def Valid : Call → Prop
  | writeBinaryData slice op => op ≤ 0xF ∧ slice.length < 0x8000000000000000
  | writeBlob blob op => op ≤ 0xF ∧ ∃ data, blob = some data ∧ data.length < 0x8000000000000000
  | writeString str _ =>
    (∀ slice, str ≠ .utf8 slice) ∧ ∃ text, str.Has text ∧ (utf8 text).length < 0x8000000000000000
  | close _ reason => ∀ str ∈ reason, ∃ text, str.Has text
  | receivePing payload => payload.length ≤ 125
  | handleWritable | handleTunnelWritable => True

/-- The frames that reach the wire whole and in their turn: at a control frame a tunnel has nothing in its send buffer, a
pong comes before the close frame or finds no socket, the reason of a close fits its frame, and the header of a text
shows its length. -/
def InTurn (ws : Client) : Call → Prop
  | writeString str _ => ∀ text, str.Has text → Packed (utf8 text).length
  | receivePing _ =>
    (ws.proxyTunnel = true → ws.sendBuffer = []) ∧ (ws.hasTcp = true → ws.outgoingWebsocket = true)
  | close _ reason =>
    (ws.proxyTunnel = true → ws.sendBuffer = []) ∧ ∀ str ∈ reason, ∀ text, str.Has text → (utf8 text).length ≤ 123
  | _ => True

def isClose : Call → Bool
  | close _ _ => true
  | _ => false

def isFlush : Call → Bool
  | handleWritable | handleTunnelWritable => true
  | _ => false

/-- The calls whose frames are sent: none after a close -/
def framed : List Call → List Call
  | [] => []
  | call :: calls => if call.isClose then [call] else if call.isFlush then framed calls else call :: framed calls

end Call

/-- The frames of the calls, as the server reads them -/
def Frames (frames : List (List UInt8)) (calls : List Call) : Prop :=
  List.Forall₂ (fun bytes call => ∃ opcode payload, Call.Sends call opcode payload ∧
    decodeFrame bytes = some (opcode, payload, [])) frames (Call.framed calls)

/-- What was taken and what waits are the frames, one after the other. Behind a close frame nothing waits. -/
def Client.InOrder (calls : List Call) (ws : Client) : Prop :=
  ∃ frames, Frames frames calls ∧
    if calls.any Call.isClose then ws.wire <+: frames.flatten ∧ ws.sendBuffer = []
    else ws.wire ++ ws.sendBuffer = frames.flatten

/-- Every call of the run comes in its turn. -/
def Client.Turns (simd : Simdutf) (ws : Client) : List (Call × Transport) → Prop
  | [] => True
  | call :: calls => call.1.InTurn ws ∧ (ws.step simd call).Turns simd calls

theorem framed_append (calls : List Call) (call : Call) :
    Call.framed (calls ++ [call]) =
      if calls.any Call.isClose then Call.framed calls else Call.framed calls ++ Call.framed [call] := by
  induction calls with
  | nil => rfl
  | cons first calls ih =>
    rw [List.cons_append, Call.framed, Call.framed, ih, List.any_cons]
    cases first.isClose <;> cases first.isFlush <;> cases calls.any Call.isClose <;> rfl

theorem decodeFrame_one (mask : Mask) (opcode : Opcode) {payload : List UInt8} (h : payload.length < 0x8000000000000000) :
    decodeFrame (frame mask opcode payload) = some (opcode, payload, []) := by
  have hdecode := decodeFrame_frame mask opcode h []
  rwa [List.append_nil] at hdecode

/-- The state of a client during a run -/
structure Client.Sound (calls : List Call) (ws : Client) : Prop where
  inOrder : ws.InOrder calls
  connected : calls.any Call.isClose = false → ws.outgoingWebsocket = true ∧ ws.hasTcp = true
  closed : calls.any Call.isClose = true → ws.outgoingWebsocket = false ∧ ws.proxyTunnel = false

namespace Client.Sound
variable {simd : Simdutf} {calls : List Call} {ws ws' : Client} {call : Call} {t : Transport} {n : Nat}

theorem any_append (calls : List Call) (call : Call) :
    (calls ++ [call]).any Call.isClose = (calls.any Call.isClose || call.isClose) := by
  rw [List.any_append, List.any_cons, List.any_nil, Bool.or_false]

/-- As long as no close frame is sent, the frames of a call join those before it. -/
theorem inOrder_open (h : Sound calls ws) (hopen : calls.any Call.isClose = false) {sent : List (List UInt8)}
    (hsent : Frames sent [call]) : ∃ frames, Frames (frames ++ sent) (calls ++ [call]) ∧ ws.outbox.all = frames.flatten := by
  obtain ⟨frames, hframes, hbytes⟩ := h.inOrder
  rw [hopen] at hbytes
  refine ⟨frames, ?_, hbytes⟩
  unfold Frames
  rw [framed_append, hopen]
  exact List.rel_append hframes hsent

/-- A call sends its frames, or, as a flush, none. -/
theorem send (h : Sound calls ws) (hopen : calls.any Call.isClose = false) (hclose : call.isClose = false)
    {sent : List (List UInt8)} (hsent : Frames sent [call]) (hall : ws'.outbox.all = ws.outbox.all ++ sent.flatten)
    (hstate : ws'.outgoingWebsocket = true ∧ ws'.hasTcp = true) : Sound (calls ++ [call]) ws' := by
  have hany := any_append calls call
  rw [hopen, hclose] at hany
  obtain ⟨frames, hframes, hbytes⟩ := h.inOrder_open hopen hsent
  refine ⟨⟨frames ++ sent, hframes, ?_⟩, fun _ => hstate, fun hclosed => ?_⟩
  · rw [hany]
    show ws'.outbox.all = _
    rw [hall, hbytes, List.flatten_append]
  · rw [hany] at hclosed
    cases hclosed

theorem frames_one {bytes : List UInt8} {opcode : Opcode} {payload : List UInt8} (hflush : call.isFlush = false)
    (hsends : call.Sends opcode payload) (hdecode : decodeFrame bytes = some (opcode, payload, [])) :
    Frames [bytes] [call] := by
  have hframed : Call.framed [call] = [call] := by
    unfold Call.framed
    rw [hflush]
    split <;> rfl
  unfold Frames
  rw [hframed]
  exact .cons ⟨opcode, payload, hsends, hdecode⟩ .nil

/-- Behind a close frame nothing waits. -/
theorem close (h : Sound calls ws) (hopen : calls.any Call.isClose = false) (hclose : call.isClose = true)
    {bytes : List UInt8} (hjoins : ws.Joins bytes ws') (hsent : Frames [bytes] [call]) :
    Sound (calls ++ [call]) ws'.clearData.dispatchClose := by
  have hany := any_append calls call
  rw [hopen, hclose] at hany
  obtain ⟨frames, hframes, hbytes⟩ := h.inOrder_open hopen hsent
  obtain ⟨o, hall, rfl⟩ := hjoins
  refine ⟨⟨frames ++ [bytes], hframes, ?_⟩, fun hnone => ?_, fun _ => ⟨rfl, rfl⟩⟩
  · rw [hany]
    refine ⟨?_, rfl⟩
    rw [List.flatten_append, List.flatten_singleton, ← hbytes, ← hall]
    exact o.taken_prefix
  · rw [hany] at hnone
    cases hnone

/-- After the close frame nothing is written. -/
theorem after (h : Sound calls ws) (hclosed : calls.any Call.isClose = true) (hwire : ws'.wire = ws.wire)
    (hbuffer : ws'.sendBuffer = []) (hstate : ws'.outgoingWebsocket = false ∧ ws'.proxyTunnel = false) (call : Call) :
    Sound (calls ++ [call]) ws' := by
  have hany := any_append calls call
  rw [hclosed, Bool.true_or] at hany
  obtain ⟨frames, hframes, hbytes⟩ := h.inOrder
  rw [hclosed] at hbytes
  refine ⟨⟨frames, ?_, ?_⟩, fun hnone => ?_, fun _ => hstate⟩
  · have happend := framed_append calls call
    rw [hclosed] at happend
    unfold Frames
    rw [happend]
    exact hframes
  · rw [hany]
    exact ⟨hwire ▸ hbytes.1, hbuffer⟩
  · rw [hany] at hnone
    cases hnone

variable (simd t) in
/-- A client that has sent a close frame writes nothing. -/
theorem step_eq (hout : ws.outgoingWebsocket = false) (htunnel : ws.proxyTunnel = false) (hbuffer : ws.sendBuffer = [])
    (hturn : call.InTurn ws) :
    (ws.step simd (call, t)).wire = ws.wire ∧ (ws.step simd (call, t)).sendBuffer = [] ∧
      (ws.step simd (call, t)).outgoingWebsocket = false ∧ (ws.step simd (call, t)).proxyTunnel = false := by
  have hskip : call.fromCpp = true → ws.step simd (call, t) = ws := by
    intro hcpp
    unfold step
    rw [hcpp, hout]
    rfl
  have hwritable : ws.handleWritable t = ws := by
    unfold handleWritable
    rw [hbuffer, List.length_nil, if_pos rfl, ite_self]
  cases call with
  | writeBinaryData | writeBlob | writeString | close =>
    rw [hskip rfl]
    exact ⟨rfl, hbuffer, hout, htunnel⟩
  | handleWritable | handleTunnelWritable =>
    have hstep : ws.handleWritable t = ws := hwritable
    show (ws.handleWritable t).wire = _ ∧ (ws.handleWritable t).sendBuffer = _ ∧
      (ws.handleWritable t).outgoingWebsocket = _ ∧ (ws.handleWritable t).proxyTunnel = _
    rw [hstep]
    exact ⟨rfl, hbuffer, hout, htunnel⟩
  | receivePing payload =>
    have htcp : ws.hasTcp = false := by
      by_contra hne
      rw [Bool.not_eq_false] at hne
      exact absurd (hturn.2 hne) (by rw [hout]; decide)
    have hcleared : (Client.clearData {ws with ping := payload}).hasTcp = false := by
      unfold hasTcp at htcp ⊢
      rw [htunnel] at htcp
      exact htcp
    have hping : ws.receivePing t simd payload = (Client.clearData {ws with ping := payload}).sendPong t simd := by
      show (if ws.outgoingWebsocket then _ else _ : Client).sendPong t simd = _
      rw [if_neg (by rw [hout]; decide)]
    have hstep : ws.step simd (.receivePing payload, t) = (Client.clearData {ws with ping := payload}).dispatchAbruptClose := by
      show ws.receivePing t simd payload = _
      rw [hping, sendPong, hcleared]
      rfl
    rw [hstep]
    exact ⟨rfl, rfl, rfl, rfl⟩

theorem sendBuffer_closed (h : Sound calls ws) (hclosed : calls.any Call.isClose = true) : ws.sendBuffer = [] := by
  obtain ⟨_, _, hbytes⟩ := h.inOrder
  rw [hclosed] at hbytes
  exact hbytes.2

variable (simd t) in
/-- Once the close frame is sent, no call writes. -/
theorem step_closed (h : Sound calls ws) (hclosed : calls.any Call.isClose = true) (hturn : call.InTurn ws) :
    Sound (calls ++ [call]) (ws.step simd (call, t)) ∧ (ws.step simd (call, t)).wire = ws.wire := by
  obtain ⟨hout, htunnel⟩ := h.closed hclosed
  obtain ⟨hwire, hbuffer, hstate⟩ := step_eq simd t hout htunnel (h.sendBuffer_closed hclosed) hturn
  exact ⟨h.after hclosed hwire hbuffer hstate call, hwire⟩

/-- As long as no close frame is sent, every call sends its frame. -/
theorem step_open (hsimd : simd.Documented) (h : Sound calls ws) (hopen : calls.any Call.isClose = false)
    (hn : t.accept = some n) (hvalid : call.Valid) (hturn : call.InTurn ws) :
    Sound (calls ++ [call]) (ws.step simd (call, t)) := by
  obtain ⟨hout, htcp⟩ := h.connected hopen
  have hstep : ws.step simd (call, t) = ws.call t simd call := by
    unfold step
    rw [hout, Bool.not_true, Bool.and_false]
    rfl
  have hsend : ∀ {bytes : List UInt8} {base : Client} {opcode : Opcode} {payload : List UInt8}, call.isClose = false → call.isFlush = false →
      base.outbox = ws.outbox → base.outgoingWebsocket = true → base.hasTcp = true →
      base.Joins bytes (ws.call t simd call) → call.Sends opcode payload →
      decodeFrame bytes = some (opcode, payload, []) → Sound (calls ++ [call]) (ws.call t simd call) := by
    intro bytes base opcode payload hclose hflush houtbox hbase hbaseTcp hjoins hsends hdecode
    obtain ⟨o, hall, heq⟩ := hjoins
    rw [heq]
    exact h.send hopen hclose (frames_one hflush hsends hdecode)
      (by rw [outbox_withOutbox, hall, houtbox, List.flatten_singleton]) ⟨hbase, hbaseTcp⟩
  have hflushed : call.isClose = false → call.isFlush = true → ws.call t simd call = ws.handleWritable t →
      Sound (calls ++ [call]) (ws.call t simd call) := by
    intro hclose hflush hcall
    have hnone : Frames [] [call] := by
      unfold Frames Call.framed
      rw [hclose, hflush]
      exact .nil
    rw [hcall]
    unfold handleWritable
    split
    · exact h.send hopen hclose hnone (List.append_nil _).symm ⟨hout, htcp⟩
    · split
      · exact h.send hopen hclose hnone (List.append_nil _).symm ⟨hout, htcp⟩
      · rw [sendBufferOut_flush hn htcp]
        exact h.send hopen hclose hnone (by simp) ⟨hout, htcp⟩
  rw [hstep]
  cases call with
  | writeBinaryData slice op =>
    obtain ⟨hop, hlength⟩ := hvalid
    have hcall : ws.call t simd (.writeBinaryData slice op) = ws.writeBytes t simd slice (.fromRaw op) := by
      show (if !ws.hasTcp || decide (0xF < op) then _ else _) = _
      rw [htcp, if_neg (by simpa using hop)]
    exact hsend rfl rfl rfl hout htcp (hcall ▸ writeBytes_joins hn htcp hsimd slice _) (.writeBinaryData slice op)
      (decodeFrame_one _ _ hlength)
  | writeBlob blob op =>
    obtain ⟨hop, data, rfl, hlength⟩ := hvalid
    refine hsend rfl rfl rfl hout htcp ?_ (.writeBlob data op) (decodeFrame_one t.entropy _ hlength)
    show ws.Joins _ (if !ws.hasTcp || decide (0xF < op) then _ else _)
    rw [htcp, if_neg (by simpa using hop)]
    cases data with
    | nil =>
      have hhas : (Copy.bytes []).Has simd [] := .bytes []
      have hcontent := hhas.copy_eq hsimd (.inl rfl) t.entropy (.fromRaw op)
      exact hcontent ▸ (sendData_sends hn htcp (.bytes []) _ (.fromRaw op)).joins
    | cons byte data => exact writeBytes_joins hn htcp hsimd (byte :: data) _
  | writeString str op =>
    obtain ⟨htag, text, hstr, hlength⟩ := hvalid
    exact hsend rfl rfl rfl hout htcp (writeString_joins hn htcp hsimd hstr htag (hturn text hstr) op) (.writeString hstr op)
      (decodeFrame_one _ _ hlength)
  | receivePing payload =>
    let base : Client := {ws with ping := payload}
    have hbase : base.hasTcp = true := htcp
    have htunnel : base.proxyTunnel = true → base.sendBuffer = [] := hturn.1
    have hpayload : base.ping.length ≤ 125 := hvalid
    obtain ⟨mask, hjoins⟩ := sendPong_joins hn hbase simd htunnel hpayload
    have hping : base.Joins (frame mask .pong payload) (ws.call t simd (.receivePing payload)) := by
      show base.Joins _ (ws.receivePing t simd payload)
      rw [receivePing_eq hout]
      exact hjoins
    exact @hsend _ base _ _ rfl rfl rfl hout hbase hping (.receivePing payload)
      (decodeFrame_one _ _ (Nat.lt_of_le_of_lt hvalid (by decide)))
  | handleWritable => exact hflushed rfl rfl rfl
  | handleTunnelWritable => exact hflushed rfl rfl rfl
  | close code reason =>
    have hcode := length_beBytes 2 code.toNat
    show Sound _ (if !ws.hasTcp then _ else _)
    rw [htcp]
    cases reason with
    | none =>
      have hempty : (utf8 []).length ≤ 123 := by decide
      obtain ⟨ws', hjoins, heq⟩ := sendCloseWithBody_eq hn htcp hsimd hturn.1 code hempty
      show Sound _ (ws.sendCloseWithBody t simd code (utf8 []))
      rw [heq]
      refine h.close hopen rfl hjoins (frames_one rfl (.close code) ?_)
      have hlength : (beBytes 2 code.toNat ++ utf8 []).length < 0x8000000000000000 := by
        show (beBytes 2 code.toNat ++ []).length < _
        rw [List.append_nil, hcode]
        decide
      rw [decodeFrame_one t.entropy .close hlength]
      exact congrArg (fun payload => some (Opcode.close, payload, [])) (List.append_nil _)
    | some str =>
      obtain ⟨text, hstr⟩ := hvalid str rfl
      have hlength := hturn.2 str rfl text hstr
      obtain ⟨ws', hjoins, heq⟩ := sendCloseWithBody_eq hn htcp hsimd hturn.1 code hlength
      have hreason : (some str).bind (encodeReason simd) = some (utf8 text) := encodeReason_eq hsimd hstr hlength
      rw [hreason]
      show Sound _ (ws.sendCloseWithBody t simd code (if 123 < (utf8 text).length then [] else utf8 text))
      rw [if_neg (Nat.not_lt.2 hlength), heq]
      refine h.close hopen rfl hjoins (frames_one rfl (.closeReason hstr code) (decodeFrame_one _ _ ?_))
      rw [List.length_append, hcode]
      omega

end Client.Sound

/-- Every call of a run is one that the callers can make, and the transport fails in none. -/
def Possible (calls : List (Call × Transport)) : Prop := ∀ call ∈ calls, call.1.Valid ∧ ∃ n, call.2.accept = some n

theorem Client.run_append (simd : Simdutf) (ws : Client) (a b : List (Call × Transport)) :
    ws.run simd (a ++ b) = (ws.run simd a).run simd b := List.foldl_append

theorem Client.turns_append {simd : Simdutf} {ws : Client} {a b : List (Call × Transport)} (h : ws.Turns simd (a ++ b)) :
    ws.Turns simd a ∧ (ws.run simd a).Turns simd b := by
  induction a generalizing ws with
  | nil => exact ⟨trivial, h⟩
  | cons call a ih =>
    obtain ⟨hcall, hrest⟩ := h
    obtain ⟨ha, hb⟩ := ih hrest
    exact ⟨⟨hcall, ha⟩, hb⟩

/-- Induction on the run, one call after the other. -/
theorem Client.run_sound {simd : Simdutf} (hsimd : simd.Documented) (tunnel : Bool) {calls : List (Call × Transport)}
    (hpossible : Possible calls) (hturns : (init tunnel).Turns simd calls) :
    Sound (calls.map Prod.fst) ((init tunnel).run simd calls) := by
  induction calls using List.reverseRecOn with
  | nil =>
    refine ⟨⟨[], .nil, rfl⟩, fun _ => ⟨rfl, ?_⟩, fun hclosed => absurd hclosed (by decide)⟩
    cases tunnel <;> rfl
  | append_singleton calls call ih =>
    obtain ⟨hbefore, hturn, _⟩ := turns_append hturns
    have hsound := ih (fun c hc => hpossible c (List.mem_append_left _ hc)) hbefore
    obtain ⟨hvalid, n, hn⟩ := hpossible call (List.mem_append_right _ List.mem_cons_self)
    have hrun := run_append simd (init tunnel) calls [call]
    rw [List.map_append, hrun]
    show Sound (_ ++ [call.1]) (((init tunnel).run simd calls).step simd (call.1, call.2))
    cases hclosed : (calls.map Prod.fst).any Call.isClose with
    | true => exact (hsound.step_closed simd call.2 hclosed hturn).1
    | false => exact hsound.step_open hsimd hclosed hn hvalid hturn

/-- Behind the close frame nothing is written. -/
theorem Client.wire_run {simd : Simdutf} {calls : List Call} {ws : Client} (h : Sound calls ws)
    (hclosed : calls.any Call.isClose = true) {more : List (Call × Transport)} (hturns : ws.Turns simd more) :
    (ws.run simd more).wire = ws.wire := by
  induction more generalizing calls ws with
  | nil => rfl
  | cons call more ih =>
    obtain ⟨hturn, hrest⟩ := hturns
    obtain ⟨hstep, hwire⟩ := h.step_closed simd call.2 hclosed hturn
    have hclosed' : (calls ++ [call.1]).any Call.isClose = true := by
      rw [Sound.any_append, hclosed, Bool.true_or]
    exact (ih hstep hclosed' hrest).trans hwire

/-- The frames of a run reach the transport whole and in order, and nothing follows a close frame, if every control
frame comes in its turn. -/
theorem frames_in_order {simd : Simdutf} (hsimd : simd.Documented) (tunnel : Bool) {calls : List (Call × Transport)}
    (hpossible : Possible calls) (hturns : (Client.init tunnel).Turns simd calls) :
    ((Client.init tunnel).run simd calls).InOrder (calls.map Prod.fst) ∧
      ∀ before after, calls = before ++ after → (before.map Prod.fst).any Call.isClose = true →
        ((Client.init tunnel).run simd calls).wire = ((Client.init tunnel).run simd before).wire := by
  refine ⟨(Client.run_sound hsimd tunnel hpossible hturns).inOrder, ?_⟩
  rintro before after rfl hclosed
  obtain ⟨hbefore, hafter⟩ := Client.turns_append hturns
  have hsound := Client.run_sound hsimd tunnel (fun c hc => hpossible c (List.mem_append_left _ hc)) hbefore
  rw [Client.run_append]
  exact Client.wire_run hsound hclosed hafter

/-- A message of which the socket takes four bytes, a pong behind it, a text, and a close -/
def queued : List (Call × Transport) :=
  [(.writeBinaryData [1, 2, 3] 2, ⟨some 4, false, fun _ => 7⟩),
    (.receivePing [9], ⟨some 3, false, fun _ => 1⟩),
    (.writeString (.latin1 [104, 233]) 1, ⟨some 0, false, fun _ => 2⟩),
    (.handleWritable, ⟨some 100, false, Mask.zero⟩),
    (.close 1000 none, ⟨some 100, false, fun _ => 5⟩)]

theorem frames_in_order_queued :
    ((Client.init false).run Simdutf.reference queued).InOrder (queued.map Prod.fst) ∧
      ∀ before after, queued = before ++ after → (before.map Prod.fst).any Call.isClose = true →
        ((Client.init false).run Simdutf.reference queued).wire =
          ((Client.init false).run Simdutf.reference before).wire := by
  refine frames_in_order Simdutf.reference_documented false ?_ ?_
  · rintro call hcall
    simp only [queued, List.mem_cons, List.not_mem_nil, or_false] at hcall
    rcases hcall with rfl | rfl | rfl | rfl | rfl
    · exact ⟨⟨by decide, by decide⟩, _, rfl⟩
    · exact ⟨(by decide : [(9 : UInt8)].length ≤ 125), _, rfl⟩
    · exact ⟨⟨(fun _ h => by cases h), _, .latin1 [104, 233], by decide⟩, _, rfl⟩
    · exact ⟨trivial, _, rfl⟩
    · exact ⟨(fun _ h => by cases h), _, rfl⟩
  · refine ⟨trivial, ⟨fun h => absurd h (by decide +kernel), fun _ => rfl⟩, ?_, trivial,
      ⟨fun h => absurd h (by decide +kernel), ?_⟩, trivial⟩
    · intro text htext
      generalize hstr : ZigString.latin1 [104, 233] = str at htext
      cases htext with
      | latin1 slice =>
        cases hstr
        exact .inl (by decide)
      | utf8 | utf16 => cases hstr
    · intro str h
      cases h

/-- The first byte of a frame has its opcode. -/
theorem opcode_of_decodeFrame {bytes : List UInt8} {opcode : Opcode} {payload : List UInt8}
    (h : decodeFrame bytes = some (opcode, payload, [])) :
    ∃ b₀ b₁ rest, bytes = b₀ :: b₁ :: rest ∧ (WebsocketHeader.fromSlice b₀ b₁).opcode = opcode := by
  unfold decodeFrame at h
  split at h
  · rename_i b₀ b₁ rest
    refine ⟨b₀, b₁, rest, rfl, ?_⟩
    simp only at h
    split at h
    · split at h
      · split at h
        · injection h with h
          exact congrArg Prod.fst h
        · cases h
      · cases h
    · cases h
  · cases h

/-- A message waits for the tunnel, and then a ping comes. -/
def overtaken : List (Call × Transport) :=
  [(.writeBinaryData [1, 2, 3] 2, ⟨some 0, true, fun _ => 7⟩), (.receivePing [], ⟨some 6, false, Mask.zero⟩)]

/-- Through a tunnel the pong overtakes the message. -/
theorem frames_in_order_overtaken :
    Possible overtaken ∧
      ¬ ((Client.init true).run Simdutf.reference overtaken).InOrder (overtaken.map Prod.fst) := by
  constructor
  · rintro call hcall
    simp only [overtaken, List.mem_cons, List.not_mem_nil, or_false] at hcall
    rcases hcall with rfl | rfl
    · exact ⟨⟨by decide, by decide⟩, _, rfl⟩
    · exact ⟨(by decide : ([] : List UInt8).length ≤ 125), _, rfl⟩
  · rintro ⟨frames, hframes, hbytes⟩
    have hwire : ((Client.init true).run Simdutf.reference overtaken).wire = [0x8A, 0x80, 0, 0, 0, 0] := by decide +kernel
    have hopen : (overtaken.map Prod.fst).any Call.isClose = false := rfl
    rw [hopen, hwire] at hbytes
    cases hframes with
    | cons hfirst _ =>
      obtain ⟨opcode, payload, hsends, hdecode⟩ := hfirst
      obtain ⟨b₀, b₁, rest, rfl, hopcode⟩ := opcode_of_decodeFrame hdecode
      cases hsends
      injection hbytes with h₀ hbytes
      injection hbytes with h₁ hbytes
      rw [← h₀, ← h₁] at hopcode
      exact absurd hopcode (by decide)

end Funbun.WebSocket
