import Funbun.WebSocket.Frame

/-! How a client sends.

A client writes to a socket, or through the tunnel of a proxy. What the transport does not take at once waits in the
send buffer until the transport is writable again. -/
namespace Funbun.WebSocket
open Library Strings

structure Socket where
  isClosed : Bool
  isShutdown : Bool

/-- `WebSocket` -/
structure Client where
  /-- The C++ object, as long as it is told of what happens -/
  outgoingWebsocket : Bool
  tcp : Socket
  proxyTunnel : Bool
  sendBuffer : List UInt8
  closeReceived : Bool
  /-- The payload of the last ping -/
  ping : List UInt8
  /-- What the transport has taken -/
  wire : List UInt8

/-- What a call meets: how many bytes the transport takes (none for an error), whether the tunnel has a backlog of its
own, and the entropy of a mask -/
structure Transport where
  accept : Option Nat
  tunnelBackpressure : Bool
  entropy : Mask

def stackFrameSize : Nat := 1024

namespace Client

def clearData (ws : Client) : Client := {ws with sendBuffer := [], ping := [], proxyTunnel := false}

def dispatchAbruptClose (ws : Client) : Client := {ws with outgoingWebsocket := false}

def dispatchClose (ws : Client) : Client := {ws with outgoingWebsocket := false}

def cancel (ws : Client) : Client :=
  let closed := {ws.clearData with tcp.isClosed := true}
  if ws.proxyTunnel then closed.dispatchAbruptClose else closed

/-- `terminate`, which is `fail` -/
def terminate (ws : Client) : Client := {ws with outgoingWebsocket := false}.cancel

def hasTcp (ws : Client) : Bool := ws.proxyTunnel || (!ws.tcp.isClosed && !ws.tcp.isShutdown)

variable (t : Transport)

def hasBackpressure (ws : Client) : Bool :=
  decide (0 < ws.sendBuffer.length) || (ws.proxyTunnel && t.tunnelBackpressure)

/-- The write of the socket or of the tunnel -/
def write (ws : Client) (bytes : List UInt8) : Option (Nat × Client) :=
  t.accept.map fun n => (min n bytes.length, {ws with wire := ws.wire ++ bytes.take n})

def sendBufferOut (ws : Client) : Bool × Client :=
  if !ws.proxyTunnel && ws.tcp.isClosed then (false, ws)
  else
    match ws.write t ws.sendBuffer with
    | none => (false, ws.terminate)
    | some (wrote, ws) => (true, {ws with sendBuffer := ws.sendBuffer.drop wrote})

/-- `send_data`, for a client without compression -/
def sendData (simd : Simdutf) (ws : Client) (bytes : Copy) (doWrite : Bool) (opcode : Opcode) : Bool × Client :=
  let ws := {ws with sendBuffer := ws.sendBuffer ++ bytes.copy simd t.entropy (bytes.contentByteLen simd) opcode}
  if doWrite then ws.sendBufferOut t else (true, ws)

def copyToSendBuffer (simd : Simdutf) (ws : Client) (bytes : List UInt8) (doWrite : Bool) : Bool × Client :=
  ws.sendData t simd (.raw bytes) doWrite .binary

/-- What is written through a tunnel does not wait for the send buffer. -/
def enqueueEncodedBytes (simd : Simdutf) (ws : Client) (bytes : List UInt8) : Bool × Client :=
  if ws.proxyTunnel then
    match ws.write t bytes with
    | none => (false, ws.terminate)
    | some (wrote, ws) =>
      if wrote < bytes.length then (true, (ws.copyToSendBuffer t simd (bytes.drop wrote) false).2) else (true, ws)
  else if !ws.hasBackpressure t then
    match ws.write t bytes with
    | none => (false, ws.terminate)
    | some (wrote, ws) =>
      if wrote = bytes.length then (true, ws) else (true, (ws.copyToSendBuffer t simd (bytes.drop wrote) false).2)
  else ws.copyToSendBuffer t simd bytes true

variable (simd : Simdutf)

def sendPong (ws : Client) : Client :=
  if !ws.hasTcp then ws.dispatchAbruptClose
  else
    let mask := if 0 < ws.ping.length then t.entropy else Mask.zero
    (ws.enqueueEncodedBytes t simd
      ((controlHeader .pong ws.ping.length).slice ++ mask.bytes ++ mask.fill ws.ping)).2

/-- The ping state of `handle_data_loop`, once the payload is complete. Calls made from inside its dispatch come
before it. -/
def receivePing (ws : Client) (payload : List UInt8) : Client :=
  let ws := {ws with ping := payload}
  (if ws.outgoingWebsocket then ws else ws.clearData).sendPong t simd

def sendCloseWithBody (ws : Client) (code : UInt16) (body : List UInt8) : Client :=
  let body := body.take 123
  if !ws.hasTcp then ws.dispatchAbruptClose.clearData
  else if 0 < body.length && !simd.validateUtf8 body then ws.terminate
  else
    let payload := beBytes 2 code.toNat ++ body
    let sent := ws.enqueueEncodedBytes t simd
      ((controlHeader .close (body.length + 2)).slice ++ t.entropy.bytes ++ t.entropy.fill payload)
    if sent.1 then sent.2.clearData.dispatchClose else sent.2

def handleWritable (ws : Client) : Client :=
  if ws.closeReceived then ws
  else if ws.sendBuffer.length = 0 then ws
  else (ws.sendBufferOut t).2

/-- `handle_tunnel_writable` -/
def handleTunnelWritable (ws : Client) : Client := ws.handleWritable t

/-- A small frame is sent from the stack, if nothing is in its way. -/
def writeBytes (ws : Client) (slice : List UInt8) (opcode : Opcode) : Client :=
  let bytes := Copy.bytes slice
  if !ws.hasBackpressure t && decide (WebsocketHeader.frameSizeIncludingMask slice.length < stackFrameSize) then
    (ws.enqueueEncodedBytes t simd (bytes.copy simd t.entropy slice.length opcode)).2
  else (ws.sendData t simd bytes (!ws.hasBackpressure t) opcode).2

def writeBinaryData (ws : Client) (slice : List UInt8) (op : UInt8) : Client :=
  if !ws.hasTcp || decide (0xF < op) then ws.dispatchAbruptClose else ws.writeBytes t simd slice (.fromRaw op)

/-- None for a value that is not a blob. An empty blob goes to the send buffer. -/
def writeBlob (ws : Client) (blob : Option (List UInt8)) (op : UInt8) : Client :=
  if !ws.hasTcp || decide (0xF < op) then ws.dispatchAbruptClose
  else
    match blob with
    | none => ws.dispatchAbruptClose
    | some [] => (ws.sendData t simd (.bytes []) (!ws.hasBackpressure t) (.fromRaw op)).2
    | some data => ws.writeBytes t simd data (.fromRaw op)

/-- A string that is tagged as UTF-8 is written as if it were Latin-1. -/
def stringCopy : ZigString → Copy
  | .latin1 slice | .utf8 slice => .latin1 slice
  | .utf16 slice => .utf16 slice

def stringFits (ws : Client) : ZigString → Bool
  | .latin1 slice | .utf8 slice =>
    decide (slice.length < stackFrameSize) && (!ws.hasBackpressure t &&
      decide (WebsocketHeader.frameSizeIncludingMask (elementLengthLatin1IntoUtf8 simd slice) < stackFrameSize))
  | .utf16 slice => decide (slice.length * 4 < stackFrameSize) && !ws.hasBackpressure t

def writeString (ws : Client) (str : ZigString) (op : UInt8) : Client :=
  if !ws.hasTcp then ws.dispatchAbruptClose
  else
    let opcode := Opcode.fromRaw (op &&& 0x0F)
    let bytes := stringCopy str
    if ws.stringFits t simd str then
      (ws.enqueueEncodedBytes t simd (bytes.copy simd t.entropy (bytes.contentByteLen simd) opcode)).2
    else (ws.sendData t simd bytes (!ws.hasBackpressure t) opcode).2

/-- The reason in UTF-8, if it fits a buffer of 128 bytes -/
def encodeReason : ZigString → Option (List UInt8)
  | .utf16 slice => if (toUtf8Alloc simd slice).length ≤ 128 then some (toUtf8Alloc simd slice) else none
  | .utf8 slice => if slice.length ≤ 128 then some slice else none
  | .latin1 slice =>
    if (copyLatin1IntoUtf8 128 slice).1 < slice.length then none else some (copyLatin1IntoUtf8 128 slice).2

def close (ws : Client) (code : UInt16) (reason : Option ZigString) : Client :=
  if !ws.hasTcp then ws
  else
    match reason.bind (encodeReason simd) with
    | some bytes => ws.sendCloseWithBody t simd code (if 123 < bytes.length then [] else bytes)
    | none => ws.sendCloseWithBody t simd code []

end Client

/-- What calls a client -/
inductive Call where
  | writeBinaryData (slice : List UInt8) (op : UInt8)
  | writeBlob (blob : Option (List UInt8)) (op : UInt8)
  | writeString (str : ZigString) (op : UInt8)
  | close (code : UInt16) (reason : Option ZigString)
  | receivePing (payload : List UInt8)
  | handleWritable
  | handleTunnelWritable

/-- The calls of C++, which makes none once it was told that the connection is closed -/
def Call.fromCpp : Call → Bool
  | writeBinaryData _ _ | writeBlob _ _ | writeString _ _ | close _ _ => true
  | receivePing _ | handleWritable | handleTunnelWritable => false

namespace Client

def call (t : Transport) (simd : Simdutf) (ws : Client) : Call → Client
  | .writeBinaryData slice op => ws.writeBinaryData t simd slice op
  | .writeBlob blob op => ws.writeBlob t simd blob op
  | .writeString str op => ws.writeString t simd str op
  | .close code reason => ws.close t simd code reason
  | .receivePing payload => ws.receivePing t simd payload
  | .handleWritable => ws.handleWritable t
  | .handleTunnelWritable => ws.handleTunnelWritable t

def step (simd : Simdutf) (ws : Client) (c : Call × Transport) : Client :=
  if c.1.fromCpp && !ws.outgoingWebsocket then ws else ws.call c.2 simd c.1

def run (simd : Simdutf) (ws : Client) (calls : List (Call × Transport)) : Client := calls.foldl (step simd) ws

/-- `init`, or `init_with_tunnel`: the socket of a client with a tunnel is detached. -/
def init (tunnel : Bool) : Client := ⟨true, ⟨tunnel, tunnel⟩, tunnel, [], false, [], []⟩

end Client

end Funbun.WebSocket
