import Funbun.Library.Resume
import Funbun.WebSocket.Send

/-! How a client receives.

What the server sends comes in segments of any size. The loop of `handle_data` takes headers, lengths and bodies from the
segment that it has. What is left when the segment ends is kept in the client, and the next segment goes on from there. -/
namespace Funbun.WebSocket
open Library Strings

inductive ErrorCode where
  | ended | failedToAllocateMemory | controlFrameIsFragmented | invalidControlFrame | compressionUnsupported
  | invalidCompressedData | unexpectedMaskFromServer | unsupportedControlFrame | unexpectedOpcode | invalidUtf8
  | messageTooBig
  deriving DecidableEq

/-- What the C++ object is told -/
inductive Event where
  | didReceiveText (text : ZigString)
  | didReceiveBytes (data : List UInt8) (op : Opcode)
  | didClose (code : UInt16) (reason : List UInt8)
  | didAbruptClose (code : ErrorCode)
  deriving DecidableEq

inductive DecompressError where
  | inflateFailed | outOfMemory | tooLarge

def DecompressError.code : DecompressError → ErrorCode
  | inflateFailed => .invalidCompressedData
  | outOfMemory => .failedToAllocateMemory
  | tooLarge => .messageTooBig

/-- simdutf, and an inflater with a state of its own -/
structure Codec (σ : Type) where
  convertUtf8ToUtf16le : List UInt8 → Option (List UInt16)
  validateUtf8 : List UInt8 → Bool
  decompress : σ → List UInt8 → Except DecompressError (List UInt8) × σ

/-- None for invalid text. Text in ASCII stays as it is. -/
def toUtf16Alloc {σ : Type} (codec : Codec σ) (bytes : List UInt8) : Option ZigString :=
  if bytes.all (· < 0x80) then some (.latin1 bytes) else (codec.convertUtf8ToUtf16le bytes).map .utf16

inductive ReceiveState where
  | needHeader | needMask | needBody | extendedPayloadLength16 | extendedPayloadLength64 | ping | pong | close | fail
  deriving DecidableEq

def maxReceiveMessageLength : Nat := 128 * 1024 * 1024

/-- The client, without what the loop of `handle_data` has in local variables -/
structure Connection (σ : Type) where
  outgoingWebsocket : Bool
  tcp : Socket
  proxyTunnel : Bool
  receivingIsFinal : Bool
  /-- The payload of a control frame, as far as it was copied -/
  pingFrameBytes : List UInt8
  pingLen : Nat
  pingReceived : Bool
  pongReceived : Bool
  closeReceived : Bool
  closeFrameBuffering : Bool
  receivePendingChunkLen : Nat
  receiveBuffer : List UInt8
  /-- The first byte of a header whose second byte is still to come -/
  headerFragment : Option UInt8
  /-- An extended length, as far as it was copied -/
  payloadLengthFrameBytes : List UInt8
  deflate : Option σ
  receivingCompressed : Bool
  messageIsCompressed : Bool
  events : List Event
  /-- What was handed to `enqueue_encoded_bytes`, each pong by the mask that it draws -/
  pongs : List (Mask → List UInt8)

structure Locals where
  receiveState : ReceiveState
  lastReceiveDataType : Opcode
  receiveBodyRemain : Nat
  isFinal : Bool

namespace Connection
variable {σ : Type}

def tell (c : Connection σ) (event : Event) : Connection σ := {c with events := c.events ++ [event]}

def clearReceiveBuffers (c : Connection σ) : Connection σ := {c with receiveBuffer := [], receivePendingChunkLen := 0}

def clearData (c : Connection σ) : Connection σ :=
  {c.clearReceiveBuffers with
    pingReceived := false, pongReceived := false, pingLen := 0, closeFrameBuffering := false
    receivingCompressed := false, messageIsCompressed := false, deflate := none, proxyTunnel := false}

/-- Of `dispatch_abrupt_close` and of `dispatch_close`: nothing is told behind it. -/
def dispatchLast (c : Connection σ) (event : Event) : Connection σ :=
  if c.outgoingWebsocket then {c.tell event with outgoingWebsocket := false} else c

def dispatchAbruptClose (c : Connection σ) (code : ErrorCode) : Connection σ := c.dispatchLast (.didAbruptClose code)

def dispatchClose (c : Connection σ) (code : UInt16) (reason : List UInt8) : Connection σ :=
  c.dispatchLast (.didClose code reason)

def cancel (c : Connection σ) : Connection σ :=
  let closed := {c.clearData with tcp.isClosed := true}
  if c.proxyTunnel then closed.dispatchAbruptClose .ended else closed

/-- `terminate`, which is `fail` -/
def terminate (c : Connection σ) (code : ErrorCode) : Connection σ := (c.dispatchAbruptClose code).cancel

def hasTcp (c : Connection σ) : Bool := c.proxyTunnel || (!c.tcp.isClosed && !c.tcp.isShutdown)

/-- The frame that `send_pong` makes: a mask is drawn, where there is something to mask. -/
def pong (c : Connection σ) (mask : Mask) : List UInt8 :=
  let mask := if 0 < c.pingLen then mask else Mask.zero
  (controlHeader .pong c.pingLen).slice ++ mask.bytes ++ mask.fill (c.pingFrameBytes.take c.pingLen)

/-- There is room to send what is handed on. -/
def sendPong (c : Connection σ) : Connection σ :=
  if !c.hasTcp then c.dispatchAbruptClose .ended else {c with pongs := c.pongs ++ [c.pong]}

variable (codec : Codec σ)

/-- The close frame itself is taken, where there is room to send. -/
def sendCloseWithBody (c : Connection σ) (dispatchCode : UInt16) (body : List UInt8) : Connection σ :=
  let body := body.take 123
  if !c.hasTcp then (c.dispatchAbruptClose .ended).clearData
  else if 0 < body.length && !codec.validateUtf8 body then c.terminate .invalidUtf8
  else c.clearData.dispatchClose dispatchCode body

/-- For a close frame without a body -/
def sendClose (c : Connection σ) : Connection σ := c.sendCloseWithBody codec 1005 []

def dispatchData (c : Connection σ) (data : List UInt8) (kind : Opcode) : Connection σ :=
  if !c.outgoingWebsocket then c.clearData
  else
    match kind with
    | .text =>
      match toUtf16Alloc codec data with
      | some text => c.tell (.didReceiveText text)
      | none => c.terminate .invalidUtf8
    | .binary | .ping | .pong => c.tell (.didReceiveBytes data kind)
    | _ => c.terminate .unexpectedOpcode

def dispatchCompressedData (c : Connection σ) (data : List UInt8) (kind : Opcode) : Connection σ :=
  match c.deflate with
  | none => c.terminate .compressionUnsupported
  | some deflate =>
    match codec.decompress deflate data with
    | (.error err, deflate) => {c with deflate := some deflate}.terminate err.code
    | (.ok items, deflate) => {c with deflate := some deflate}.dispatchData codec items kind

/-- The message in the receive buffer, which is empty behind it -/
def dispatchBuffer (c : Connection σ) (kind : Opcode) : Connection σ :=
  {({c with receiveBuffer := []}.dispatchData codec c.receiveBuffer kind).clearReceiveBuffers with
    messageIsCompressed := false}

def dispatchCompressedBuffer (c : Connection σ) (kind : Opcode) : Connection σ :=
  {({c with receiveBuffer := []}.dispatchCompressedData codec c.receiveBuffer kind).clearReceiveBuffers with
    receivingCompressed := false, messageIsCompressed := false}

/-- A message is dispatched from the segment, if it is there as a whole, else from the receive buffer. -/
def consume (c : Connection σ) (data : List UInt8) (leftInFragment : Nat) (kind : Opcode) (isFinal : Bool) :
    Nat × Connection σ :=
  let buffered := {c with receiveBuffer := c.receiveBuffer ++ data}
  let complete := data.length ≤ leftInFragment ∧ leftInFragment - data.length - c.receivePendingChunkLen = 0
  let pending := {buffered with receivePendingChunkLen := c.receivePendingChunkLen - leftInFragment}
  if c.receivingCompressed then
    if complete then
      let c := {buffered with receivePendingChunkLen := 0}
      (data.length, if isFinal then c.dispatchCompressedBuffer codec kind else c)
    else (data.length, pending)
  else
    let whole := isFinal ∧ data.length = leftInFragment ∧ c.receivePendingChunkLen = 0
    if whole ∧ c.receiveBuffer = [] then
      (data.length, {c.dispatchData codec data kind with messageIsCompressed := false})
    else if whole ∧ data = [] then (0, c.dispatchBuffer codec kind)
    else if data = [] then (0, c)
    else if complete then
      let c := {buffered with receivePendingChunkLen := 0}
      (data.length, if isFinal then c.dispatchBuffer codec kind else c)
    else (data.length, pending)

end Connection

/-- The echo on the wire, and what is dispatched -/
def receivedCloseCodes (received : UInt16) : UInt16 × UInt16 :=
  let isInvalid := received < 1000 ∨ (1004 ≤ received ∧ received < 1007) ∨ (1016 ≤ received ∧ received ≤ 2999)
  let dispatch := if isInvalid then 1002 else received
  (if dispatch = 1001 then 1000 else dispatch, dispatch)

/-- The state behind a header, and whether the message needs compression. A control frame with the bit of compression
fails. -/
def parseWebsocketHeader (header : WebsocketHeader) : ReceiveState × Bool :=
  let isMessage := header.opcode = .text ∨ header.opcode = .binary
  let receiveState : ReceiveState :=
    if ¬isMessage ∧ header.opcode ≠ .continue_ ∧ header.compressed then .fail
    else if header.mask ∧ isMessage then .needMask
    else if header.rsv ≠ 0 then .fail
    else
      match header.opcode with
      | .text | .continue_ | .binary =>
        if header.len ≤ 125 then .needBody
        else if header.len = 126 then .extendedPayloadLength16
        else if header.len = 127 then .extendedPayloadLength64
        else .fail
      | .close => .close
      | .ping => .ping
      | .pong => .pong
      | _ => .fail
  (receiveState, decide isMessage && header.compressed)

namespace Connection
variable {σ : Type}

/-- A control frame is between the fragments of a message. -/
def beginFrame (c : Connection σ) (header : WebsocketHeader) : Connection σ :=
  if (header.opcode = .text ∨ header.opcode = .binary) ∨ header.opcode = .continue_ then
    {c with receivingIsFinal := header.final}
  else c

def beginCompression (c : Connection σ) (header : WebsocketHeader) (needCompression : Bool) : Connection σ :=
  if header.opcode = .text ∨ header.opcode = .binary then
    {c with messageIsCompressed := needCompression, receivingCompressed := needCompression}
  else if header.opcode = .continue_ then {c with receivingCompressed := c.messageIsCompressed}
  else c

end Connection

/-! ### The loop of `handle_data` -/

section
variable {σ : Type} (codec : Codec σ)

/-- A turn of the loop: `break` waits, and `break` with `terminated` stops. -/
abbrev Turn (σ : Type) : Type := Progress (Locals × Connection σ) UInt8

/-- Behind an element the loop is left where the segment ends. -/
def turnEnd (ℓ : Locals) (c : Connection σ) (data : List UInt8) : Turn σ :=
  if data = [] then .wait (ℓ, c) else .next (ℓ, c) data

/-- The header, once both its bytes are there. An empty final message has no body to wait for. -/
def readHeader (header : WebsocketHeader) (ℓ : Locals) (c : Connection σ) : Except (Connection σ) (Locals × Connection σ) :=
  let receivingType := header.opcode
  let receiveState := (parseWebsocketHeader header).1
  let needCompression := (parseWebsocketHeader header).2
  let isMessage := receivingType = .text ∨ receivingType = .binary
  if receivingType = .continue_ ∧ c.receivingIsFinal then .error (c.terminate .unexpectedOpcode)
  else if isMessage ∧ !c.receivingIsFinal then .error (c.terminate .unexpectedOpcode)
  else if receivingType.isControl ∧ !header.final then .error (c.terminate .controlFrameIsFragmented)
  else
    let c := c.beginFrame header
    let lastReceiveDataType := if isMessage then receivingType else ℓ.lastReceiveDataType
    if ¬receivingType ∈ [.continue_, .text, .binary, .ping, .pong, .close] then
      .error (c.terminate .unsupportedControlFrame)
    else if needCompression ∧ c.deflate.isNone then .error (c.terminate .compressionUnsupported)
    else if needCompression ∧ receivingType.isControl then .error (c.terminate .invalidControlFrame)
    else
      let c := c.beginCompression header needCompression
      if header.len = 0 ∧ receiveState = .needBody ∧ header.final then
        let c := (c.consume codec [] 0 lastReceiveDataType header.final).2
        .ok (⟨.needHeader, lastReceiveDataType, 0, header.final⟩,
          {c with receivingCompressed := false, messageIsCompressed := false})
      else .ok (⟨receiveState, lastReceiveDataType, header.len.toNat, header.final⟩, c)

def behindHeader (ℓ : Locals) (read : Except (Connection σ) (Locals × Connection σ)) (data : List UInt8) : Turn σ :=
  match read with
  | .error c => .stop (ℓ, c)
  | .ok (ℓ, c) => if ℓ.receiveState = .needHeader then turnEnd ℓ c data else .next (ℓ, c) data

/-- A segment has at least one byte, and behind an element the loop goes on only if there is another. -/
def needHeader (ℓ : Locals) (c : Connection σ) (data : List UInt8) : Turn σ :=
  match c.headerFragment, data with
  | _, [] => .wait (ℓ, c)
  | some b₀, b₁ :: data =>
    behindHeader ℓ (readHeader codec (.fromSlice b₀ b₁) ℓ {c with headerFragment := none}) data
  | none, [b₀] => .wait (ℓ, {c with headerFragment := some b₀})
  | none, b₀ :: b₁ :: data => behindHeader ℓ (readHeader codec (.fromSlice b₀ b₁) ℓ c) data

/-- The length, once its bytes are there. A server sends a shorter header for none. -/
def behindLength (bytes : List UInt8) (ℓ : Locals) (c : Connection σ) (data : List UInt8) : Turn σ :=
  let c := {c with payloadLengthFrameBytes := []}
  if ofBeBytes bytes = 0 then .stop (ℓ, c.terminate .invalidControlFrame)
  else .next ({ℓ with receiveState := .needBody, receiveBodyRemain := ofBeBytes bytes}, c) data

def extendedPayloadLength (byteSize : Nat) (ℓ : Locals) (c : Connection σ) (data : List UInt8) : Turn σ :=
  if data = [] then .wait (ℓ, c)
  else
    let totalReceived := min (byteSize - c.payloadLengthFrameBytes.length) data.length
    let bytes := c.payloadLengthFrameBytes ++ data.take totalReceived
    if bytes.length < byteSize then .wait (ℓ, {c with payloadLengthFrameBytes := bytes})
    else behindLength (bytes.take byteSize) ℓ c (data.drop totalReceived)

/-- The flag of a control frame whose payload is being copied: `ping_received`, or `pong_received` -/
structure ControlKind (σ : Type) where
  opcode : Opcode
  received : Connection σ → Bool
  setReceived : Connection σ → Bool → Connection σ
  /-- What is done behind the dispatch -/
  answer : Connection σ → Connection σ

def pingKind : ControlKind σ where
  opcode := .ping
  received c := c.pingReceived
  setReceived c v := {c with pingReceived := v}
  answer c := c.sendPong

def pongKind : ControlKind σ where
  opcode := .pong
  received c := c.pongReceived
  setReceived c v := {c with pongReceived := v}
  answer c := c

/-- The control frame, once its payload is there -/
def behindControl (kind : ControlKind σ) (ℓ : Locals) (c : Connection σ) (data : List UInt8) : Turn σ :=
  let c := c.dispatchData codec (c.pingFrameBytes.take c.pingLen) kind.opcode
  turnEnd {ℓ with receiveState := .needHeader, receiveBodyRemain := 0} (kind.answer (kind.setReceived c false)) data

/-- The remaining length becomes the number of the bytes that were copied. -/
def copyControl (kind : ControlKind σ) (ℓ : Locals) (c : Connection σ) (data : List UInt8) : Turn σ :=
  let totalReceived := if data = [] then ℓ.receiveBodyRemain else min c.pingLen (ℓ.receiveBodyRemain + data.length)
  let slice := data.take (totalReceived - ℓ.receiveBodyRemain)
  let c := {c with pingFrameBytes := c.pingFrameBytes.take ℓ.receiveBodyRemain ++ slice}
  if 0 < c.pingLen - totalReceived then .wait ({ℓ with receiveBodyRemain := totalReceived}, c)
  else behindControl codec kind ℓ c (data.drop (totalReceived - ℓ.receiveBodyRemain))

def receiveControl (kind : ControlKind σ) (ℓ : Locals) (c : Connection σ) (data : List UInt8) : Turn σ :=
  if !kind.received c then
    if 125 < ℓ.receiveBodyRemain then .stop (ℓ, c.terminate .invalidControlFrame)
    else
      copyControl codec kind {ℓ with receiveBodyRemain := 0}
        (kind.setReceived {c with pingLen := ℓ.receiveBodyRemain} true) data
  else copyControl codec kind ℓ c data

def needBody (ℓ : Locals) (c : Connection σ) (data : List UInt8) : Turn σ :=
  if maxReceiveMessageLength < c.receiveBuffer.length + ℓ.receiveBodyRemain then .stop (ℓ, c.terminate .messageTooBig)
  else
    let toConsume := min ℓ.receiveBodyRemain data.length
    let consumed := c.consume codec (data.take toConsume) ℓ.receiveBodyRemain ℓ.lastReceiveDataType ℓ.isFinal
    let remain := ℓ.receiveBodyRemain - consumed.1
    turnEnd {ℓ with receiveBodyRemain := remain, receiveState := if remain = 0 then .needHeader else ℓ.receiveState}
      consumed.2 (data.drop toConsume)

/-- The close frame, once its body is there -/
def closeWithBody (ℓ : Locals) (c : Connection σ) : Turn σ :=
  let c := {c with closeReceived := true}
  let closeData := c.pingFrameBytes.take c.pingLen
  if 2 ≤ c.pingLen then
    let dispatchCode := (receivedCloseCodes (UInt16.ofNat (ofBeBytes (closeData.take 2)))).2
    .stop (ℓ, {c.sendCloseWithBody codec dispatchCode (closeData.drop 2) with closeFrameBuffering := false})
  else .stop (ℓ, {c.sendClose codec with closeFrameBuffering := false})

def copyClose (ℓ : Locals) (c : Connection σ) (data : List UInt8) : Turn σ :=
  let toCopy := min data.length (c.pingLen - ℓ.receiveBodyRemain)
  let c := {c with pingFrameBytes := c.pingFrameBytes.take ℓ.receiveBodyRemain ++ data.take toCopy}
  let ℓ := {ℓ with receiveBodyRemain := ℓ.receiveBodyRemain + toCopy}
  if ℓ.receiveBodyRemain < c.pingLen then .wait (ℓ, c) else closeWithBody codec ℓ c

/-- The remaining length becomes the number of the bytes that were copied. What is asked of the length is asked again of
this number when the next segment comes. -/
def receiveClose (ℓ : Locals) (c : Connection σ) (data : List UInt8) : Turn σ :=
  if ℓ.receiveBodyRemain = 1 ∨ 125 < ℓ.receiveBodyRemain then .stop (ℓ, c.terminate .invalidControlFrame)
  else if 0 < ℓ.receiveBodyRemain then
    if !c.closeFrameBuffering then
      copyClose codec {ℓ with receiveBodyRemain := 0}
        {c with pingLen := ℓ.receiveBodyRemain, closeFrameBuffering := true} data
    else copyClose codec ℓ c data
  else .stop (ℓ, {c with closeReceived := true}.sendClose codec)

/-- One turn of the loop -/
def turn (s : Locals × Connection σ) (data : List UInt8) : Turn σ :=
  match s.1.receiveState with
  | .needHeader => needHeader codec s.1 s.2 data
  | .needMask => .stop (s.1, s.2.terminate .unexpectedMaskFromServer)
  | .extendedPayloadLength64 => extendedPayloadLength 8 s.1 s.2 data
  | .extendedPayloadLength16 => extendedPayloadLength 2 s.1 s.2 data
  | .ping => receiveControl codec pingKind s.1 s.2 data
  | .pong => receiveControl codec pongKind s.1 s.2 data
  | .needBody => needBody codec s.1 s.2 data
  | .close => receiveClose codec s.1 s.2 data
  | .fail => .stop (s.1, s.2.terminate .unsupportedControlFrame)

/-- A header takes a byte at least, and there are no more than two turns behind it. -/
def turnsLeft (s : Locals × Connection σ) (data : List UInt8) : Nat :=
  3 * data.length +
    match s.1.receiveState with
    | .needHeader => 0
    | .extendedPayloadLength16 | .extendedPayloadLength64 => 2
    | _ => 1

/-- `WebSocket`: between two segments the local variables are kept in it. -/
structure Receiver (σ : Type) where
  connection : Connection σ
  receiveState : ReceiveState
  receivingType : Opcode
  receiveBodyRemain : Nat

namespace Receiver

def load (ws : Receiver σ) : Locals × Connection σ :=
  (⟨ws.receiveState, ws.receivingType, ws.receiveBodyRemain, ws.connection.receivingIsFinal⟩, ws.connection)

def save (ws : Receiver σ) : Turn σ → Receiver σ
  | .next (ℓ, c) _ | .wait (ℓ, c) => ⟨c, ℓ.receiveState, ℓ.lastReceiveDataType, ℓ.receiveBodyRemain⟩
  | .stop (_, c) => {ws with connection := {c with closeReceived := true}}

/-- A client that keeps no data from its handshake -/
def handleData (ws : Receiver σ) (data : List UInt8) : Receiver σ :=
  if ws.connection.closeReceived then ws else ws.save (finish (turn codec) turnsLeft ws.load data)

def init (deflate : Option σ) (tunnel : Bool) : Receiver σ where
  connection := {
    outgoingWebsocket := true, tcp := ⟨tunnel, tunnel⟩, proxyTunnel := tunnel, receivingIsFinal := true
    pingFrameBytes := [], pingLen := 0, pingReceived := false, pongReceived := false, closeReceived := false
    closeFrameBuffering := false, receivePendingChunkLen := 0, receiveBuffer := [], headerFragment := none
    payloadLengthFrameBytes := [], deflate := deflate, receivingCompressed := false, messageIsCompressed := false
    events := [], pongs := [] }
  receiveState := .needHeader
  receivingType := .resB
  receiveBodyRemain := 0

end Receiver

end

end Funbun.WebSocket
