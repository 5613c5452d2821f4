import Funbun.Http2.Wire

/-! A session of the HTTP/2 client: its streams, its windows and its buffers.

HPACK and the socket are outside. The decoder is a parameter; what an encoder gives comes with a request;
what the socket's writes give comes in the order of the writes. Where a conversion to `i32` fails a
function has no result. -/
namespace Funbun.Http2

/-- The errors of a session and of its streams. -/
inductive Error where
  | protocolError | frameSizeError | flowControlError | enhanceYourCalm | headerListTooLarge | compressionError
  | streamReset | refusedStream | goAway | writeFailed
  deriving DecidableEq

/-- `wire::ErrorCode` -/
inductive ErrorCode where
  | noError | protocolError | internalError | flowControlError | frameSizeError | refusedStream | cancel
  | compressionError | enhanceYourCalm
  deriving DecidableEq

def ErrorCode.toNat : ErrorCode → Nat
  | .noError => 0x0
  | .protocolError => 0x1
  | .internalError => 0x2
  | .flowControlError => 0x3
  | .frameSizeError => 0x6
  | .refusedStream => 0x7
  | .cancel => 0x8
  | .compressionError => 0x9
  | .enhanceYourCalm => 0xb

/-- `error_code_for` -/
def errorCodeFor : Error → ErrorCode
  | .protocolError => .protocolError
  | .frameSizeError => .frameSizeError
  | .flowControlError => .flowControlError
  | .compressionError => .compressionError
  | .headerListTooLarge | .enhanceYourCalm => .enhanceYourCalm
  | _ => .internalError

def localInitialWindowSize : Nat := 1 <<< 24

def localMaxHeaderListSize : Nat := 256 * 1024

def writeBufferHighWater : Nat := 256 * 1024

def writeBufferControlLimit : Nat := 1024 * 1024

/-- `i32::try_from` -/
def toI32 : Int → Option Int
  | .ofNat n => if n < 2 ^ 31 then some (.ofNat n) else none
  | .negSucc n => if n < 2 ^ 31 then some (.negSucc n) else none

/-- `u32::saturating_add` -/
def saturatingAdd (a b : Nat) : Nat := min (a + b) (2 ^ 32 - 1)

/-- `HTTPRequestBody`. The buffer of a stream is shared with the thread that fills it, until it is detached. -/
inductive Body where
  | bytes (body : List UInt8)
  | stream (buffer : Option (List UInt8)) (ended : Bool)
  deriving DecidableEq

/-- What of `HTTPClient` the session reads. -/
structure Client where
  asyncHttpId : Nat
  body : Body
  deriving DecidableEq

/-- There are bytes, or there may be. -/
def Client.hasBody (client : Client) : Bool :=
  match client.body with
  | .bytes body => !body.isEmpty
  | .stream _ _ => true

inductive StreamState where
  | opened
  | halfClosedLocal
  | halfClosedRemote
  | closed
  deriving DecidableEq

structure Stream where
  id : Nat
  client : Option Client
  headerBlock : List UInt8
  bodyBuffer : List UInt8
  decodedBytes : List UInt8
  decodedHeaders : List (List UInt8 × List UInt8)
  statusCode : Nat
  state : StreamState
  rstDone : Bool
  headersReady : Bool
  headersEndStream : Bool
  awaitingContinue : Bool
  fatalError : Option Error
  unackedBytes : Nat
  dataBytesReceived : Nat
  sendWindow : Int
  pendingBody : List UInt8
  deriving DecidableEq

namespace Stream

/-- `Stream::new` -/
def new (id : Nat) (client : Client) (sendWindow : Int) : Stream where
  id := id
  client := some client
  headerBlock := []
  bodyBuffer := []
  decodedBytes := []
  decodedHeaders := []
  statusCode := 0
  state := .opened
  rstDone := false
  headersReady := false
  headersEndStream := false
  awaitingContinue := false
  fatalError := none
  unackedBytes := 0
  dataBytesReceived := 0
  sendWindow := sendWindow
  pendingBody := []

def sentEndStream (stream : Stream) : Stream :=
  {stream with state := match stream.state with
    | .opened => .halfClosedLocal
    | .halfClosedRemote => .closed
    | other => other}

def recvEndStream (stream : Stream) : Stream :=
  {stream with state := match stream.state with
    | .opened => .halfClosedRemote
    | .halfClosedLocal => .closed
    | other => other}

def localClosed (stream : Stream) : Bool := stream.state = .halfClosedLocal ∨ stream.state = .closed

def remoteClosed (stream : Stream) : Bool := stream.state = .halfClosedRemote ∨ stream.state = .closed

end Stream

/-- A request to attach: what HPACK makes of its headers, if it can, whether it expects 100-continue, its client, and
whether the client's signal is set when it is taken from `pending_attach`. -/
structure Request where
  encoded : Option (List UInt8)
  expectContinue : Bool
  client : Client
  aborted : Bool
  deriving DecidableEq

/-- A DATA frame that was written, with the windows and the size of a frame as they were then. -/
structure Framed where
  streamId : Nat
  flags : UInt8
  payload : List UInt8
  sendWindow : Int
  connSendWindow : Int
  maxFrameSize : Nat
  deriving DecidableEq

/-- `δ` is the state of the HPACK decoder. The last three fields are a history: the DATA frames written, the
increments of windows that were accepted, and what the decoder took of each header block. -/
structure Session (δ : Type) where
  hpack : δ
  socket : List (Option Nat)
  writeBuffer : List UInt8
  readBuffer : List UInt8
  streams : List Stream
  nextStreamId : Nat
  expectingContinuation : Nat
  pendingAttach : List Request
  prefaceSent : Bool
  settingsReceived : Bool
  goawayReceived : Bool
  encoderPoisoned : Bool
  delivering : Bool
  streamProgressed : Bool
  goawayLastStreamId : Nat
  fatalError : Option Error
  orphanHeaderBlock : List UInt8
  remoteMaxFrameSize : Nat
  remoteMaxConcurrentStreams : Nat
  remoteInitialWindowSize : Nat
  pendingHpackEncCapacity : Option Nat
  connSendWindow : Int
  connUnackedBytes : Nat
  framed : List Framed
  credits : List (Nat × Int)
  fed : List (List UInt8)

namespace Session
variable {δ : Type}

/-- `ClientSession::create` -/
def create (hpack : δ) (socket : List (Option Nat)) : Session δ where
  hpack := hpack
  socket := socket
  writeBuffer := []
  readBuffer := []
  streams := []
  nextStreamId := 1
  expectingContinuation := 0
  pendingAttach := []
  prefaceSent := false
  settingsReceived := false
  goawayReceived := false
  encoderPoisoned := false
  delivering := false
  streamProgressed := false
  goawayLastStreamId := 0
  fatalError := none
  orphanHeaderBlock := []
  remoteMaxFrameSize := defaultMaxFrameSize
  remoteMaxConcurrentStreams := 100
  remoteInitialWindowSize := defaultWindowSize
  pendingHpackEncCapacity := none
  connSendWindow := defaultWindowSize
  connUnackedBytes := 0
  framed := []
  credits := []
  fed := []

/-- The stream of an id in `streams`. -/
def find (session : Session δ) (id : Nat) : Option Stream := session.streams.find? fun stream => stream.id == id

/-- A stream that was changed, in its place. -/
def put (session : Session δ) (stream : Stream) : Session δ :=
  {session with streams := session.streams.map fun other => if other.id == stream.id then stream else other}

/-- `swap_remove`: the last stream goes to the place of the one that is removed. -/
def swapRemove (streams : List Stream) (id : Nat) : List Stream :=
  match streams.findIdx? fun stream => stream.id == id with
  | none => streams
  | some i =>
    match streams.getLast? with
    | none => streams
    | some last => (streams.set i last).dropLast

/-- `fatal_error = Some(err)` -/
def fail (session : Session δ) (err : Error) : Session δ := {session with fatalError := some err}

def queue (session : Session δ) (bytes : List UInt8) : Session δ :=
  {session with writeBuffer := session.writeBuffer ++ bytes}

def writeFrame (session : Session δ) (frame : Frame) : Session δ := session.queue frame.encode

/-- `write_frame` of a DATA frame. -/
def writeData (session : Session δ) (stream : Stream) (flags : UInt8) (payload : List UInt8) : Session δ :=
  {session.writeFrame ⟨.data, flags, stream.id, payload⟩ with
    framed := session.framed ++
      [⟨stream.id, flags, payload, stream.sendWindow, session.connSendWindow, session.remoteMaxFrameSize⟩]}

/-- `rst_stream` -/
def rstStream (session : Session δ) (stream : Stream) (code : ErrorCode) : Session δ × Stream :=
  if stream.rstDone || stream.state = .closed then (session, stream)
  else
    let stream := {stream with rstDone := true, state := .closed}
    (session.writeFrame ⟨.rstStream, 0, stream.id, Library.beBytes 4 code.toNat⟩, stream)

def writeWindowUpdate (session : Session δ) (streamId increment : Nat) : Session δ :=
  session.writeFrame ⟨.windowUpdate, 0, streamId, Library.beBytes 4 increment⟩

def hasHeadroom (session : Session δ) : Bool :=
  !session.goawayReceived && !session.encoderPoisoned && session.fatalError.isNone
    && session.streams.length < session.remoteMaxConcurrentStreams && session.nextStreamId < maxStreamId

/-- `remove_stream`. The fragment of a header block that is not complete goes to the session. -/
def removeStream (session : Session δ) (stream : Stream) : Session δ :=
  {session with
    orphanHeaderBlock :=
      if session.expectingContinuation = stream.id then stream.headerBlock else session.orphanHeaderBlock
    streams := swapRemove session.streams stream.id}

end Session
end Funbun.Http2
