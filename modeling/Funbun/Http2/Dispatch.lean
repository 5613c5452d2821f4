import Funbun.Http2.Session
import Funbun.Strings.Ascii

/-! Frames that come in: `parse_frames` and `dispatch_frame`. -/
namespace Funbun.Http2
open Library
open Strings (ascii)

variable {δ : Type}

/-! ### HPACK -/

/-- What `lshpack_wrapper_decode` does: an offset, a name and a value, and the state behind them. -/
def Lshpack (δ : Type) : Type := δ → List UInt8 → Nat × List UInt8 × List UInt8 × δ

structure DecodeResult (δ : Type) where
  next : Nat
  name : List UInt8
  value : List UInt8
  hpack : δ

/-- `HPACK::decode` -/
def Lshpack.decode (lshpack : Lshpack δ) (hpack : δ) (src : List UInt8) : Option (DecodeResult δ) :=
  match lshpack hpack src with
  | (offset, name, value, hpack) =>
    if offset = 0 then none
    else if name = [] then none
    else some ⟨offset, name, value, hpack⟩

def isDigit (byte : UInt8) : Bool := 0x30 ≤ byte && byte ≤ 0x39

def digit (byte : UInt8) : Nat := byte.toNat - 0x30

/-- `parse_unsigned` of a value of three bytes, or 0. It takes an underscore between digits. -/
def parseStatus : List UInt8 → Nat
  | [a, b, c] =>
    if isDigit a && isDigit b && isDigit c then 100 * digit a + 10 * digit b + digit c
    else if isDigit a && b == 0x5f && isDigit c then 10 * digit a + digit c
    else 0
  | _ => 0

/-- The bytes a name may have besides lower-case letters and digits. -/
def namePunctuation : List UInt8 := ascii "!#$%&'*+-.^_|~" ++ [0x60]

def isMalformedResponseField (name : List UInt8) : Bool :=
  name.isEmpty || name.any (fun c => !(0x61 ≤ c && c ≤ 0x7a || isDigit c || namePunctuation.contains c))
    || [ascii "connection", ascii "keep-alive", ascii "proxy-connection", ascii "te", ascii "transfer-encoding",
      ascii "upgrade"].contains name

def isMalformedResponseValue (value : List UInt8) : Bool := value.any fun c => c == 0 || c == 0x0d || c == 0x0a

/-- The state of the loop of `decode_header_block`. What the decoder took is kept as a history. -/
structure Fields (δ : Type) where
  hpack : δ
  taken : List UInt8
  status : Nat
  seenRegular : Bool
  seenStatus : Bool
  malformed : Bool
  decodedBytes : List UInt8
  headers : List (List UInt8 × List UInt8)

/-- A field of a header block. None, where the decoded list is too large. -/
def Fields.field (statusCode : Nat) (fields : Fields δ) (name value : List UInt8) : Option (Fields δ) :=
  if name.head? = some 0x3a then
    if statusCode ≠ 0 ∨ fields.seenRegular ∨ fields.seenStatus ∨ name ≠ ascii ":status" then
      some {fields with malformed := true}
    else
      let status := parseStatus value
      some {fields with
        seenStatus := true
        status := status
        malformed := fields.malformed || status < 100 || status > 999}
  else
    let fields := {fields with seenRegular := true}
    if statusCode ≠ 0 ∨ fields.malformed then some fields
    else if isMalformedResponseField name || isMalformedResponseValue value then some {fields with malformed := true}
    else if fields.decodedBytes.length + name.length + value.length > localMaxHeaderListSize then none
    else some {fields with
      decodedBytes := fields.decodedBytes ++ name ++ value
      headers := fields.headers ++ [(name, value)]}

/-- The loop of `decode_header_block`. The fuel is the size of the block: the decoder takes a byte or more. -/
def decodeLoop (lshpack : Lshpack δ) (statusCode : Nat) : Nat → Fields δ → List UInt8 → Option Error × Fields δ
  | _, fields, [] => (none, fields)
  | 0, fields, _ :: _ => (none, fields)
  | fuel + 1, fields, byte :: bytes =>
    match lshpack.decode fields.hpack (byte :: bytes) with
    | none => (some .compressionError, fields)
    | some result =>
      let fields := {fields with
        hpack := result.hpack
        taken := fields.taken ++ (byte :: bytes).take result.next}
      match fields.field statusCode result.name result.value with
      | none => (some .headerListTooLarge, fields)
      | some fields => decodeLoop lshpack statusCode fuel fields ((byte :: bytes).drop result.next)

/-- The loop of `decode_discard_orphan`. -/
def discardLoop (lshpack : Lshpack δ) : Nat → δ → List UInt8 → List UInt8 → Option Error × δ × List UInt8
  | _, hpack, taken, [] => (none, hpack, taken)
  | 0, hpack, taken, _ :: _ => (none, hpack, taken)
  | fuel + 1, hpack, taken, byte :: bytes =>
    match lshpack.decode hpack (byte :: bytes) with
    | none => (some .compressionError, hpack, taken)
    | some result =>
      discardLoop lshpack fuel result.hpack (taken ++ (byte :: bytes).take result.next) ((byte :: bytes).drop result.next)

namespace Session

/-- `decode_discard_orphan` -/
def decodeDiscardOrphan (lshpack : Lshpack δ) (session : Session δ) : Session δ :=
  match discardLoop lshpack session.orphanHeaderBlock.length session.hpack [] session.orphanHeaderBlock with
  | (err, hpack, taken) =>
    {session with
      hpack := hpack
      fed := session.fed ++ [taken]
      fatalError := err.or session.fatalError
      orphanHeaderBlock := []}

/-- What `decode_header_block` makes of a block that was decoded to its end. -/
def applyHeaderBlock (session : Session δ) (stream : Stream) (startLen : Nat) (fields : Fields δ) : Session δ × Stream :=
  if fields.malformed then
    let stream := {stream with decodedBytes := stream.decodedBytes.take startLen}
    let (session, stream) := session.rstStream stream .protocolError
    (session, {stream with fatalError := some .protocolError})
  else if stream.statusCode ≠ 0 then
    (session, if !stream.headersEndStream then {stream with fatalError := some .protocolError} else stream)
  else if fields.status = 0 then
    (session, {stream with decodedBytes := stream.decodedBytes.take startLen, fatalError := some .protocolError})
  else if fields.status ≥ 100 ∧ fields.status < 200 then
    let stream := {stream with decodedBytes := stream.decodedBytes.take startLen}
    let stream := if fields.status = 100 then {stream with awaitingContinue := false} else stream
    (session, if stream.remoteClosed then {stream with fatalError := some .protocolError} else stream)
  else
    let stream := {stream with statusCode := fields.status, headersReady := true}
    let (session, stream) :=
      if stream.awaitingContinue then
        (session.writeData stream Flags.endStream [], {stream with awaitingContinue := false}.sentEndStream)
      else (session, stream)
    (session, {stream with decodedHeaders := stream.decodedHeaders ++ fields.headers})

/-- `decode_header_block` -/
def decodeHeaderBlock (lshpack : Lshpack δ) (session : Session δ) (stream : Stream) : Session δ × Stream :=
  let startLen := stream.decodedBytes.length
  let fields : Fields δ := ⟨session.hpack, [], 0, false, false, false, stream.decodedBytes, []⟩
  match decodeLoop lshpack stream.statusCode stream.headerBlock.length fields stream.headerBlock with
  | (err, fields) =>
    let session := {session with hpack := fields.hpack, fed := session.fed ++ [fields.taken]}
    let stream := {stream with decodedBytes := fields.decodedBytes, headerBlock := []}
    match err with
    | some err => (session.fail err, stream)
    | none => session.applyHeaderBlock stream startLen fields

/-! ### Frames -/

/-- The streams' windows by a new initial window, with whether one is past the greatest. -/
def shiftWindows (delta : Int) : List Stream → Option (Bool × List Stream)
  | [] => some (false, [])
  | stream :: streams =>
    let next := stream.sendWindow + delta
    if next > maxWindowSize then some (true, stream :: streams)
    else match toI32 next with
      | none => none
      | some next => (shiftWindows delta streams).map fun r => (r.1, {stream with sendWindow := next} :: r.2)

/-- A setting, with whether the frame is given up. -/
def applySetting (session : Session δ) (type value : Nat) : Option (Bool × Session δ) :=
  match type with
  | 0x5 => -- SETTINGS_MAX_FRAME_SIZE
    if value < defaultMaxFrameSize ∨ value > maxFrameSize then some (true, session.fail .protocolError)
    else some (false, {session with remoteMaxFrameSize := value})
  | 0x3 => some (false, {session with remoteMaxConcurrentStreams := value}) -- SETTINGS_MAX_CONCURRENT_STREAMS
  | 0x1 => -- SETTINGS_HEADER_TABLE_SIZE
    some (false, {session with
      pendingHpackEncCapacity := some (min (session.pendingHpackEncCapacity.getD value) value)})
  | 0x4 => -- SETTINGS_INITIAL_WINDOW_SIZE
    if value > maxWindowSize then some (true, session.fail .flowControlError)
    else
      let delta : Int := value - session.remoteInitialWindowSize
      match shiftWindows delta session.streams with
      | none => none
      | some (overflows, streams) =>
        let session := {session with remoteInitialWindowSize := value, streams := streams}
        some (if overflows then (true, session.fail .flowControlError) else (false, session))
  | _ => some (false, session)

/-- The settings of a payload, with whether the frame is given up. -/
def applySettings (session : Session δ) : List UInt8 → Option (Bool × Session δ)
  | t₀ :: t₁ :: v₀ :: v₁ :: v₂ :: v₃ :: payload =>
    match session.applySetting (ofBeBytes [t₀, t₁]) (ofBeBytes [v₀, v₁, v₂, v₃]) with
    | none => none
    | some (true, session) => some (true, session)
    | some (false, session) => session.applySettings payload
  | _ => some (false, session)

def dispatchSettings (session : Session δ) (frame : Frame) : Option (Session δ) :=
  if frame.streamId ≠ 0 then some (session.fail .protocolError)
  else if has frame.flags Flags.ack then some (if frame.length ≠ 0 then session.fail .frameSizeError else session)
  else if frame.length % 6 ≠ 0 then some (session.fail .frameSizeError)
  else match session.applySettings frame.payload with
    | none => none
    | some (true, session) => some session
    | some (false, session) =>
      if session.writeBuffer.length ≥ writeBufferControlLimit then some (session.fail .enhanceYourCalm)
      else some {session.writeFrame ⟨.settings, Flags.ack, 0, []⟩ with settingsReceived := true}

def dispatchWindowUpdate (session : Session δ) (frame : Frame) : Option (Session δ) :=
  if frame.length ≠ 4 then some (session.fail .frameSizeError)
  else match toI32 (uint31 (ofBeBytes frame.payload)) with
    | none => none
    | some inc =>
      if frame.streamId = 0 then
        if inc = 0 then some (session.fail .protocolError)
        else
          let next := session.connSendWindow + inc
          if next > maxWindowSize then some (session.fail .flowControlError)
          else (toI32 next).map fun next =>
            {session with connSendWindow := next, streamProgressed := true, credits := session.credits ++ [(0, inc)]}
      else match session.find (uint31 frame.streamId) with
        | some stream =>
          if inc = 0 then
            let (session, stream) := session.rstStream stream .protocolError
            some (session.put {stream with fatalError := some .protocolError})
          else
            let next := stream.sendWindow + inc
            if next > maxWindowSize then
              let (session, stream) := session.rstStream stream .flowControlError
              some (session.put {stream with fatalError := some .flowControlError})
            else (toI32 next).map fun next =>
              {session.put {stream with sendWindow := next} with
                streamProgressed := true
                credits := session.credits ++ [(stream.id, inc)]}
        | none =>
          if frame.streamId % 2 = 0 ∨ frame.streamId ≥ session.nextStreamId then some (session.fail .protocolError)
          else some session

def dispatchPing (session : Session δ) (frame : Frame) : Session δ :=
  if frame.length ≠ 8 then session.fail .frameSizeError
  else if frame.streamId ≠ 0 then session.fail .protocolError
  else if has frame.flags Flags.ack then session
  else if session.writeBuffer.length ≥ writeBufferControlLimit then session.fail .enhanceYourCalm
  else session.writeFrame ⟨.ping, Flags.ack, 0, frame.payload⟩

def dispatchPriority (session : Session δ) (frame : Frame) : Session δ :=
  if frame.streamId = 0 then session.fail .protocolError
  else if frame.length ≠ streamPrioritySize then session.fail .frameSizeError
  else session

/-- An id of a stream that was never opened. -/
def idle (session : Session δ) (streamId : Nat) : Bool :=
  streamId = 0 ∨ streamId % 2 = 0 ∨ streamId ≥ session.nextStreamId

def dispatchHeaders (lshpack : Lshpack δ) (session : Session δ) (frame : Frame) : Session δ :=
  match session.find frame.streamId with
  | none =>
    if session.idle frame.streamId then session.fail .protocolError
    else match headersFragment frame.flags frame.payload with
      | none => session.fail .protocolError
      | some fragment =>
        if fragment.length > localMaxHeaderListSize then session.fail .headerListTooLarge
        else
          let session := {session with orphanHeaderBlock := fragment}
          if has frame.flags Flags.endHeaders then session.decodeDiscardOrphan lshpack
          else {session with expectingContinuation := frame.streamId}
  | some stream =>
    let session := {session with streamProgressed := true}
    match headersFragment frame.flags frame.payload with
    | none => session.fail .protocolError
    | some fragment =>
      if fragment.length > localMaxHeaderListSize then session.fail .headerListTooLarge
      else
        let stream := {stream with headerBlock := fragment, headersEndStream := has frame.flags Flags.endStream}
        if has frame.flags Flags.endHeaders then
          let stream := if stream.headersEndStream then stream.recvEndStream else stream
          let (session, stream) := session.decodeHeaderBlock lshpack stream
          session.put stream
        else {session.put stream with expectingContinuation := stream.id}

def dispatchContinuation (lshpack : Lshpack δ) (session : Session δ) (frame : Frame) : Session δ :=
  if session.expectingContinuation = 0 ∨ frame.streamId ≠ session.expectingContinuation then session.fail .protocolError
  else match session.find session.expectingContinuation with
    | some stream =>
      if stream.headerBlock.length + frame.payload.length > localMaxHeaderListSize then session.fail .headerListTooLarge
      else
        let stream := {stream with headerBlock := stream.headerBlock ++ frame.payload}
        if has frame.flags Flags.endHeaders then
          let session := {session with expectingContinuation := 0}
          let stream := if stream.headersEndStream then stream.recvEndStream else stream
          let (session, stream) := session.decodeHeaderBlock lshpack stream
          session.put stream
        else session.put stream
    | none =>
      if session.orphanHeaderBlock.length + frame.payload.length > localMaxHeaderListSize then
        session.fail .headerListTooLarge
      else
        let session := {session with orphanHeaderBlock := session.orphanHeaderBlock ++ frame.payload}
        if has frame.flags Flags.endHeaders then
          {session with expectingContinuation := 0}.decodeDiscardOrphan lshpack
        else session

def dispatchData (session : Session δ) (frame : Frame) : Session δ :=
  let session := {session with connUnackedBytes := saturatingAdd session.connUnackedBytes frame.length}
  match session.find frame.streamId with
  | none => if session.idle frame.streamId then session.fail .protocolError else session
  | some stream =>
    let session := {session with streamProgressed := true}
    if stream.statusCode = 0 then
      let (session, stream) := session.rstStream stream .protocolError
      session.put {stream with fatalError := some .protocolError}
    else if stream.remoteClosed then
      session.put {stream with fatalError := some (stream.fatalError.getD .protocolError)}
    else
      let stream := {stream with unackedBytes := saturatingAdd stream.unackedBytes frame.length}
      match if has frame.flags Flags.padded then stripPadding frame.payload else some frame.payload with
      | none => (session.put stream).fail .protocolError
      | some fragment =>
        let stream := if has frame.flags Flags.endStream then stream.recvEndStream else stream
        session.put {stream with
          dataBytesReceived := stream.dataBytesReceived + fragment.length
          bodyBuffer := stream.bodyBuffer ++ fragment}

def dispatchRstStream (session : Session δ) (frame : Frame) : Session δ :=
  if frame.length ≠ 4 then session.fail .frameSizeError
  else if session.idle frame.streamId then session.fail .protocolError
  else match session.find frame.streamId with
    | none => session
    | some stream =>
      let hadResponse := stream.remoteClosed
      let code := ofBeBytes frame.payload
      session.put {stream with
        rstDone := true
        state := .closed
        fatalError :=
          if code = ErrorCode.noError.toNat then if hadResponse then none else some .streamReset
          else if code = ErrorCode.refusedStream.toNat then some .refusedStream
          else some .streamReset}

def dispatchGoaway (session : Session δ) (frame : Frame) : Session δ :=
  if frame.streamId ≠ 0 then session.fail .protocolError
  else if frame.length < 8 then session.fail .frameSizeError
  else
    let lastId := uint31 (ofBeBytes (frame.payload.take 4))
    let graceful := ofBeBytes ((frame.payload.drop 4).take 4) = ErrorCode.noError.toNat
    {session with
      goawayReceived := true
      goawayLastStreamId := lastId
      streams := session.streams.map fun stream =>
        if stream.id > lastId then
          {stream with fatalError := some (if graceful then .refusedStream else .goAway)}
        else if ¬graceful ∧ ¬stream.remoteClosed then {stream with fatalError := some .goAway}
        else stream}

/-- `dispatch_frame` -/
def dispatchFrame (lshpack : Lshpack δ) (session : Session δ) (frame : Frame) : Option (Session δ) :=
  if session.expectingContinuation ≠ 0 ∧ frame.type ≠ .continuation then some (session.fail .protocolError)
  else if session.settingsReceived = false ∧ frame.type ≠ .settings then some (session.fail .protocolError)
  else match frame.type with
    | .settings => session.dispatchSettings frame
    | .windowUpdate => session.dispatchWindowUpdate frame
    | .ping => some (session.dispatchPing frame)
    | .priority => some (session.dispatchPriority frame)
    | .headers => some (session.dispatchHeaders lshpack frame)
    | .continuation => some (session.dispatchContinuation lshpack frame)
    | .data => some (session.dispatchData frame)
    | .rstStream => some (session.dispatchRstStream frame)
    | .goaway => some (session.dispatchGoaway frame)
    | .pushPromise => some (session.fail .protocolError)
    | .altsvc | .origin | .other _ _ => some session

/-- `parse_frames`, with the bytes that are not consumed. The fuel is the number of bytes. -/
def parseFrames (lshpack : Lshpack δ) : Nat → Session δ → List UInt8 → Option (Session δ × List UInt8)
  | 0, session, buf => some (session, buf)
  | fuel + 1, session, buf =>
    match parseFrame buf with
    | .incomplete => some (session, buf)
    | .tooLong => some (session.fail .frameSizeError, buf)
    | .frame frame rest =>
      match session.dispatchFrame lshpack frame with
      | none => none
      | some session =>
        if session.fatalError.isSome then some (session, rest) else parseFrames lshpack fuel session rest

/-- What `on_data` and `on_idle_data` do with the bytes that come in. -/
def receive (lshpack : Lshpack δ) (session : Session δ) (incoming : List UInt8) : Option (Session δ) :=
  let buf := session.readBuffer ++ incoming
  (session.parseFrames lshpack buf.length buf).map fun r =>
    {r.1 with readBuffer := if session.readBuffer = [] ∧ r.1.fatalError.isSome then session.readBuffer else r.2}

end Session
end Funbun.Http2
