import Funbun.Http2.Dispatch

/-! Frames that go out: requests, and their bodies under both windows. -/
namespace Funbun.Http2
open Library
open Strings (ascii)

variable {δ : Type}

def clientPreface : List UInt8 := ascii "PRI * HTTP/2.0\r\n\r\nSM\r\n\r\n"

/-- `usize::MAX` -/
def usizeMax : Nat := 2 ^ 64 - 1

/-- The loop of `encode_hpack_table_size_update`. -/
def tableSizeRest : Nat → Nat → List UInt8
  | 0, rest => [UInt8.ofNat rest]
  | fuel + 1, rest =>
    if rest ≥ 128 then UInt8.ofNat (rest % 128 + 128) :: tableSizeRest fuel (rest / 128) else [UInt8.ofNat rest]

/-- `encode_hpack_table_size_update` of a number of 32 bits. -/
def encodeHpackTableSizeUpdate (value : Nat) : List UInt8 :=
  if value < 31 then [UInt8.ofNat (0x20 + value)] else UInt8.ofNat (0x20 + 31) :: tableSizeRest 5 (value - 31)

namespace Session

/-- `write_preface` -/
def writePreface (session : Session δ) : Session δ :=
  let settings := beBytes 2 0x2 ++ beBytes 4 0 ++ (beBytes 2 0x4 ++ beBytes 4 localInitialWindowSize) ++
    (beBytes 2 0x6 ++ beBytes 4 localMaxHeaderListSize)
  let session := (session.queue clientPreface).writeFrame ⟨.settings, 0, 0, settings⟩
  {session.writeWindowUpdate 0 (localInitialWindowSize - defaultWindowSize) with prefaceSent := true}

/-- The loop of `write_header_block`. The fuel is the number of bytes. -/
def writeHeaderLoop (streamId : Nat) (endStream : Bool) : Nat → Session δ → List UInt8 → Bool → Session δ
  | fuel, session, remaining, first =>
    let chunk := remaining.take session.remoteMaxFrameSize
    let rest := remaining.drop session.remoteMaxFrameSize
    let flags := (if rest = [] then Flags.endHeaders else 0) ||| (if first && endStream then Flags.endStream else 0)
    let session := session.writeFrame ⟨if first then .headers else .continuation, flags, streamId, chunk⟩
    match fuel with
    | 0 => session
    | fuel + 1 => if rest = [] then session else writeHeaderLoop streamId endStream fuel session rest false

/-- `write_header_block` -/
def writeHeaderBlock (session : Session δ) (streamId : Nat) (block : List UInt8) (endStream : Bool) : Session δ :=
  writeHeaderLoop streamId endStream block.length session block true

/-- The bytes that both windows allow. -/
def window (session : Session δ) (stream : Stream) : Nat := (min stream.sendWindow session.connSendWindow).toNat

/-- A chunk of `write_data_windowed`. Both windows pay for it. -/
def writeChunk (session : Session δ) (stream : Stream) (flags : UInt8) (chunk : List UInt8) :
    Option (Session δ × Stream) :=
  match toI32 chunk.length with
  | none => none
  | some len =>
    match toI32 (stream.sendWindow - len), toI32 (session.connSendWindow - len) with
    | some sendWindow, some connSendWindow =>
      some ({session.writeData stream flags chunk with connSendWindow := connSendWindow},
        {stream with sendWindow := sendWindow})
    | _, _ => none

/-- The loop of `write_data_windowed`, with the number of bytes consumed. The fuel is one more than the bytes. -/
def writeDataLoop (endStream : Bool) (cap : Nat) :
    Nat → Session δ → Stream → List UInt8 → Nat → Option (Session δ × Stream × Nat)
  | 0, session, stream, _, consumed => some (session, stream, consumed)
  | fuel + 1, session, stream, remaining, consumed =>
    if remaining ≠ [] ∧ session.window stream = 0 then some (session, stream, consumed)
    else if remaining ≠ [] ∧ session.writeBuffer.length ≥ writeBufferHighWater then some (session, stream, consumed)
    else if consumed ≥ cap ∧ remaining ≠ [] then some (session, stream, consumed)
    else
      let chunkLen := min (min remaining.length session.remoteMaxFrameSize) (session.window stream)
      let last := chunkLen = remaining.length
      let flags := if last ∧ endStream then Flags.endStream else 0
      match session.writeChunk stream flags (remaining.take chunkLen) with
      | none => none
      | some (session, stream) =>
        if last then some (session, stream, consumed + chunkLen)
        else writeDataLoop endStream cap fuel session stream (remaining.drop chunkLen) (consumed + chunkLen)

/-- `write_data_windowed` -/
def writeDataWindowed (session : Session δ) (stream : Stream) (data : List UInt8) (endStream : Bool) (cap : Nat) :
    Option (Session δ × Stream × Nat) :=
  writeDataLoop endStream cap (data.length + 1) session stream data 0

/-- `drain_send_body` -/
def drainSendBody (session : Session δ) (stream : Stream) (cap : Nat) : Option (Session δ × Stream) :=
  if stream.localClosed || stream.awaitingContinue || stream.fatalError.isSome then some (session, stream)
  else match stream.client with
    | none => some (session, stream)
    | some client =>
      match client.body with
      | .bytes _ =>
        match session.writeDataWindowed stream stream.pendingBody true cap with
        | none => none
        | some (session, stream, sent) =>
          let stream := {stream with pendingBody := stream.pendingBody.drop sent}
          some (session, if stream.pendingBody = [] then stream.sentEndStream else stream)
      | .stream none _ => some (session, stream)
      | .stream (some data) ended =>
        if data = [] ∧ ¬ended then some (session, stream)
        else match session.writeDataWindowed stream data ended cap with
          | none => none
          | some (session, stream, sent) =>
            let rest := data.drop sent
            let stream := if rest = [] ∧ ended then stream.sentEndStream else stream
            let buffer := if stream.localClosed then none else some rest
            some (session, {stream with client := some {client with body := .stream buffer ended}})

/-- A pass of `drain_send_bodies` over the streams, with whether it progressed. -/
def drainPass (slice : Nat) : Session δ → List Nat → Bool → Option (Session δ × Bool)
  | session, [], progressed => some (session, progressed)
  | session, id :: ids, progressed =>
    match session.find id with
    | none => drainPass slice session ids progressed
    | some stream =>
      if stream.localClosed || stream.sendWindow ≤ 0 then drainPass slice session ids progressed
      else match session.drainSendBody stream slice with
        | none => none
        | some (after, stream) =>
          drainPass slice (after.put stream) ids
            (progressed || after.connSendWindow != session.connSendWindow || stream.localClosed)

/-- The loop of `drain_send_bodies`. -/
def drainLoop (slice : Nat) : Nat → Session δ → Option (Session δ)
  | 0, session => some session
  | fuel + 1, session =>
    if session.connSendWindow > 0 ∧ session.writeBuffer.length < writeBufferHighWater then
      match drainPass slice session (session.streams.map (·.id)) false with
      | none => none
      | some (session, progressed) => if progressed then drainLoop slice fuel session else some session
    else some session

/-- `drain_send_bodies`. A pass that progresses takes from the connection's window or closes a stream, which gives
the fuel. -/
def drainSendBodies (session : Session δ) : Option (Session δ) :=
  drainLoop session.remoteMaxFrameSize (session.connSendWindow.toNat + session.streams.length + 1) session

/-- What `write_request` does up to the body: the header block is queued. -/
def writeHead (session : Session δ) (stream : Stream) (request : Request) (encoded : List UInt8) : Session δ × Stream :=
  let update := (session.pendingHpackEncCapacity.map encodeHpackTableSizeUpdate).getD []
  let session := {session with pendingHpackEncCapacity := none}
  (session.writeHeaderBlock stream.id (update ++ encoded) (!request.client.hasBody),
    {stream with awaitingContinue := stream.awaitingContinue || request.expectContinue && request.client.hasBody})

/-- `write_request`, with whether HPACK could encode it. -/
def writeRequest (session : Session δ) (stream : Stream) (request : Request) : Option (Bool × Session δ × Stream) :=
  match request.encoded with
  | none => some (false, {session with pendingHpackEncCapacity := none}, stream)
  | some encoded =>
    let (session, stream) := session.writeHead stream request encoded
    match request.client.body with
    | .bytes (byte :: body) =>
      (session.drainSendBody {stream with pendingBody := byte :: body} usizeMax).map fun r => (true, r)
    | .bytes [] => some (true, session, stream.sentEndStream)
    | .stream _ _ => some (true, session, stream)

end Session
end Funbun.Http2
