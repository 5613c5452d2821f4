import Funbun.Http2.Encode

/-! The entry points of a session: requests that attach, and what the socket and the other threads wake.

What a client makes of a response is outside, and comes as a `Delivery` for each call of `deliver_stream`.
A socket that is closed is one whose writes fail. -/
namespace Funbun.Http2
open Library

variable {δ : Type}

/-- What the client of a stream decides while it is delivered. -/
structure Delivery where
  aborted : Bool
  /-- What `apply_headers` gives: whether the response is finished, if it is no error. -/
  applyHeaders : Option Bool
  isRedirectPending : Bool
  responseStageBody : Bool
  /-- What `h2_handle_response_body` gives: whether to report, if it is no error. -/
  handleResponseBody : Option Bool
  isDone : Bool
  /-- The requests that are re-dispatched to this session, which parks them. -/
  parked : List Request
  deriving DecidableEq

def Delivery.idle : Delivery := ⟨false, some false, false, false, some false, false, []⟩

namespace Session

/-- The loop of `flush`, with the bytes written, if no write fails. -/
def flushLoop (len : Nat) : List (Option Nat) → Nat → Option Nat × List (Option Nat)
  | [], total => (some total, [])
  | wrote :: socket, total =>
    if total ≥ len then (some total, wrote :: socket)
    else match wrote with
      | none => (none, socket)
      | some wrote =>
        let n := min wrote (len - total)
        if n = 0 then (some total, socket) else flushLoop len socket (total + n)

/-- `flush`, with whether it is `Ok`. -/
def flush (session : Session δ) : Bool × Session δ :=
  if session.writeBuffer = [] then (true, session)
  else match flushLoop session.writeBuffer.length session.socket 0 with
    | (none, socket) => (false, {session with socket := socket})
    | (some total, socket) => (true, {session with socket := socket, writeBuffer := session.writeBuffer.drop total})

/-- `fail_all` and `on_close`. -/
def failAll (session : Session δ) (err : Error) : Session δ :=
  let session := {session with fatalError := some (session.fatalError.getD err)}
  let session := session.writeFrame ⟨.goaway, 0, 0, beBytes 4 0 ++ beBytes 4 (errorCodeFor err).toNat⟩
  {session.flush.2 with streams := [], pendingAttach := []}

/-- The stream that `attach` opens, and the session with it. -/
def openStream (session : Session δ) (client : Client) (sendWindow : Int) : Session δ × Stream :=
  let stream := Stream.new session.nextStreamId client sendWindow
  let session := {session with
    nextStreamId := saturatingAdd session.nextStreamId 2
    streams := session.streams ++ [stream]}
  (if session.prefaceSent then session else session.writePreface, stream)

/-- `attach` -/
def attach (session : Session δ) (request : Request) : Option (Session δ) :=
  match toI32 (min session.remoteInitialWindowSize maxWindowSize) with
  | none => none
  | some sendWindow =>
    let (session, stream) := session.openStream request.client sendWindow
    match session.writeRequest stream request with
    | none => none
    | some (false, session, stream) =>
      let session := {session with
        encoderPoisoned := true
        streams := swapRemove session.streams stream.id
        pendingAttach := []}
      some session.flush.2
    | some (true, session, stream) =>
      let session := session.put stream
      some (if session.flush.1 then session.flush.2 else session.flush.2.failAll .writeFailed)

/-- `adopt`. A request that finds no room goes elsewhere. -/
def adopt (session : Session δ) (request : Request) : Option (Session δ) :=
  if session.delivering || !session.settingsReceived then
    some {session with pendingAttach := session.pendingAttach ++ [request]}
  else if !session.hasHeadroom then some session
  else session.attach request

/-- The loop of `drain_pending`. -/
def drainWaiters : Session δ → List Request → Option (Session δ)
  | session, [] => some session
  | session, request :: waiters =>
    if session.fatalError.isSome || request.aborted then drainWaiters session waiters
    else if session.hasHeadroom then
      match session.attach request with
      | none => none
      | some session => drainWaiters session waiters
    else drainWaiters session waiters

def drainPending (session : Session δ) : Option (Session δ) :=
  if !session.settingsReceived || session.pendingAttach = [] then some session
  else drainWaiters {session with pendingAttach := []} session.pendingAttach

/-- `detach_with_failure` -/
def detachWithFailure (session : Session δ) (stream : Stream) : Session δ :=
  let (session, stream) := session.rstStream stream .cancel
  (session.put stream).flush.2.removeStream stream

/-- `stream_body_by_http_id`, where `data` was put in the buffer of the body before. -/
def streamBodyByHttpId (session : Session δ) (asyncHttpId : Nat) (data : List UInt8) (ended : Bool) : Option (Session δ) :=
  match session.streams.find? fun stream => stream.client.any fun client => client.asyncHttpId == asyncHttpId with
  | none => some session
  | some stream =>
    match stream.client with
    | some ⟨_, .stream buffer _⟩ =>
      let body := Body.stream (buffer.map (· ++ data)) ended
      match session.drainSendBody {stream with client := some ⟨asyncHttpId, body⟩} usizeMax with
      | none => none
      | some (session, stream) =>
        let session := session.put stream
        some (if session.flush.1 then session.flush.2 else session.flush.2.failAll .writeFailed)
    | _ => some session

/-- `replenish_window` -/
def replenishWindow (session : Session δ) : Session δ :=
  let threshold := localInitialWindowSize / 2
  let session := if session.connUnackedBytes ≥ threshold then
      {session.writeWindowUpdate 0 session.connUnackedBytes with connUnackedBytes := 0}
    else session
  let due := fun stream : Stream => stream.unackedBytes ≥ threshold ∧ ¬stream.remoteClosed
  let updates := session.streams.filter fun stream => due stream
  let session := {session with
    streams := session.streams.map fun stream => if due stream then {stream with unackedBytes := 0} else stream}
  updates.foldl (fun session stream => session.writeWindowUpdate stream.id stream.unackedBytes) session

/-- `deliver_stream`, with whether the stream is finished. -/
def deliverStream (session : Session δ) (stream : Stream) (delivery : Delivery) : Bool × Session δ × Stream :=
  let park := fun session : Session δ => {session with pendingAttach := session.pendingAttach ++ delivery.parked}
  let cancel := fun (session : Session δ) (stream : Stream) =>
    let (session, stream) := session.rstStream stream .cancel
    (true, park (session.put stream).flush.2, stream)
  match stream.client with
  | none => (true, session, stream)
  | some _ =>
    if delivery.aborted then cancel session stream
    else if stream.fatalError.isSome then (true, park session, stream)
    else
      let ready := stream.headersReady
      let stream := {stream with headersReady := false}
      if ready ∧ (delivery.applyHeaders = none ∨ delivery.isRedirectPending) then cancel session stream
      else if ready ∧ (delivery.applyHeaders = some true ∨ stream.remoteClosed ∧ stream.bodyBuffer = []) then
        (true, park session, stream)
      else if !delivery.responseStageBody then (false, park session, stream)
      else if stream.bodyBuffer ≠ [] then
        let terminal := stream.remoteClosed
        let stream := {stream with bodyBuffer := []}
        match delivery.handleResponseBody with
        | none => cancel session stream
        | some report => (terminal || report && delivery.isDone, park session, stream)
      else (stream.remoteClosed, park session, stream)

/-- The loop of `on_data` that delivers, from the stream at `i` on, with whether a stream was reset. A call of
`deliver_stream` is one for each unit of fuel. -/
def deliverLoop : Nat → Session δ → Nat → Bool → List Delivery → Session δ × Bool
  | 0, session, _, rstAny, _ => (session, rstAny)
  | fuel + 1, session, i, rstAny, deliveries =>
    match session.streams[i]? with
    | none => (session, rstAny)
    | some stream =>
      match session.deliverStream stream (deliveries.head?.getD .idle) with
      | (false, session, stream) => deliverLoop fuel (session.put stream) (i + 1) rstAny deliveries.tail
      | (true, session, stream) =>
        let opened := stream.state ≠ .closed
        let (session, stream) := if opened then session.rstStream stream .cancel else (session, stream)
        deliverLoop fuel (session.removeStream stream) i (rstAny || opened) deliveries.tail

/-- `on_data`, up to `drain_send_bodies`. -/
def onDataReceive (lshpack : Lshpack δ) (session : Session δ) (incoming : List UInt8) : Option (Session δ) :=
  match {session with streamProgressed := false}.receive lshpack incoming with
  | none => none
  | some session =>
    let session := if session.flush.1 then session.flush.2 else session.flush.2.fail .writeFailed
    match session.fatalError with
    | some err => some (session.failAll err)
    | none => session.drainPending

/-- The streams are delivered, and the windows replenished. -/
def onDataDeliver (session : Session δ) (deliveries : List Delivery) : Session δ :=
  let (session, rstAny) := deliverLoop session.streams.length {session with delivering := true} 0 false deliveries
  let session := {session with delivering := false}.replenishWindow
  if rstAny ∨ session.writeBuffer ≠ [] then session.flush.2 else session

/-- `on_data` -/
def onData (lshpack : Lshpack δ) (session : Session δ) (incoming : List UInt8) (deliveries : List Delivery) :
    Option (Session δ) :=
  match session.onDataReceive lshpack incoming with
  | none => none
  | some session =>
    if session.fatalError.isSome then some session
    else match session.drainSendBodies with
      | none => none
      | some session =>
        if !session.flush.1 then some (session.flush.2.failAll .writeFailed)
        else
          let session := session.flush.2.onDataDeliver deliveries
          if session.pendingAttach = [] then some session
          else match session.drainPending with
            | none => none
            | some session =>
              some (if session.fatalError.isSome then session
                else if session.flush.1 then session.flush.2 else session.flush.2.failAll .writeFailed)

/-- The loop of `reap_aborted`, for the clients whose signal is set. -/
def reapAborted (aborted : List Nat) : Nat → Session δ → Nat → Session δ
  | 0, session, _ => session
  | fuel + 1, session, i =>
    match session.streams[i]? with
    | none => session
    | some stream =>
      if stream.client.any fun client => aborted.contains client.asyncHttpId then
        reapAborted aborted fuel (session.detachWithFailure stream) i
      else reapAborted aborted fuel session (i + 1)

/-- `on_writable` -/
def onWritable (session : Session δ) (aborted : List Nat) : Option (Session δ) :=
  if !session.flush.1 then some (session.flush.2.failAll .writeFailed)
  else match session.flush.2.drainSendBodies with
    | none => none
    | some session =>
      if !session.flush.1 then some (session.flush.2.failAll .writeFailed)
      else some (reapAborted aborted session.flush.2.streams.length session.flush.2 0)

/-- `on_idle_data` -/
def onIdleData (lshpack : Lshpack δ) (session : Session δ) (incoming : List UInt8) : Option (Session δ) :=
  (session.receive lshpack incoming).map fun session =>
    if session.flush.1 then session.flush.2 else session.flush.2.fail .writeFailed

/-- `abort_by_http_id` -/
def abortByHttpId (session : Session δ) (asyncHttpId : Nat) : Session δ :=
  match session.pendingAttach.findIdx? fun request => request.client.asyncHttpId == asyncHttpId with
  | some i =>
    {session with pendingAttach := match session.pendingAttach.getLast? with
      | none => session.pendingAttach
      | some last => (session.pendingAttach.set i last).dropLast}
  | none =>
    match session.streams.find? fun stream => stream.client.any fun client => client.asyncHttpId == asyncHttpId with
    | none => session
    | some stream => session.detachWithFailure stream

end Session
end Funbun.Http2
