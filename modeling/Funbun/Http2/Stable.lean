import Funbun.Http2.Effects

/-! What every operation keeps.

A property of a session's core is stable when it is kept by what frames a body, by a stream that is opened, and by one that
is removed. Every entry point keeps it then, until a fatal error. What comes in is a premise here. -/
namespace Funbun.Http2
open Library

variable {δ : Type}

structure StreamCore where
  id : Nat
  headerBlock : List UInt8
  sendWindow : Int

def Stream.core (stream : Stream) : StreamCore := ⟨stream.id, stream.headerBlock, stream.sendWindow⟩

/-- What of a session the properties look at. -/
structure Core where
  readBuffer : List UInt8
  streams : List StreamCore
  nextStreamId : Nat
  expectingContinuation : Nat
  orphanHeaderBlock : List UInt8
  remoteMaxFrameSize : Nat
  remoteInitialWindowSize : Nat
  connSendWindow : Int
  framed : List Framed
  credits : List (Nat × Int)
  fed : List (List UInt8)

namespace Session

def core (session : Session δ) : Core where
  readBuffer := session.readBuffer
  streams := session.streams.map Stream.core
  nextStreamId := session.nextStreamId
  expectingContinuation := session.expectingContinuation
  orphanHeaderBlock := session.orphanHeaderBlock
  remoteMaxFrameSize := session.remoteMaxFrameSize
  remoteInitialWindowSize := session.remoteInitialWindowSize
  connSendWindow := session.connSendWindow
  framed := session.framed
  credits := session.credits
  fed := session.fed

/-- The property, while there is no fatal error. -/
def Holds (P : Core → Prop) (session : Session δ) : Prop := session.fatalError = none → P session.core

/-- There is a session after it, with the property. -/
def Keeps (P : Core → Prop) (result : Option (Session δ)) : Prop := ∃ session, result = some session ∧ session.Holds P

variable {session : Session δ} {stream : Stream}

theorem core_put (h : ∀ old ∈ session.streams, old.id = stream.id → stream.core = old.core) :
    (session.put stream).core = session.core := by
  show Core.mk _ ((session.put stream).streams.map Stream.core) _ _ _ _ _ _ _ _ _ = _
  rw [map_put Stream.core h]
  rfl

theorem core_rstStream (session : Session δ) (stream : Stream) (code : ErrorCode) :
    (session.rstStream stream code).1.core = session.core ∧ (session.rstStream stream code).2.core = stream.core ∧
      (session.rstStream stream code).1.streams = session.streams := by
  unfold rstStream
  split <;> exact ⟨rfl, rfl, rfl⟩

section Quiet
variable (hids : (session.streams.map (·.id)).Nodup) (frame : Frame)
include hids

/-- A stream of the session is changed, but for its core. -/
theorem core_put_mem {old : Stream} (hmem : old ∈ session.streams) (hcore : stream.core = old.core) :
    (session.put stream).core = session.core := by
  have hid : stream.id = old.id := congrArg StreamCore.id hcore
  refine core_put fun other hother heq => ?_
  rw [hcore, List.inj_on_of_nodup_map hids hmem hother (heq.trans hid).symm]

/-- A stream is reset, and put back with an error. -/
theorem core_reset (hmem : stream ∈ session.streams) (code : ErrorCode) (err : Option Error) :
    ((session.rstStream stream code).1.put {(session.rstStream stream code).2 with fatalError := err}).core =
      session.core := by
  obtain ⟨hsession, hstream, hstreams⟩ := core_rstStream session stream code
  refine Eq.trans (core_put_mem (hstreams ▸ hids) (hstreams ▸ hmem) ?_) hsession
  exact hstream

/-! ### Frames that leave the core alone -/

omit hids in
theorem core_dispatchPing : (session.dispatchPing frame).core = session.core := by
  unfold dispatchPing
  repeat' split
  all_goals rfl

omit hids in
theorem core_dispatchPriority : (session.dispatchPriority frame).core = session.core := by
  unfold dispatchPriority
  repeat' split
  all_goals rfl

omit hids in
theorem core_dispatchGoaway : (session.dispatchGoaway frame).core = session.core := by
  unfold dispatchGoaway
  split
  · rfl
  split
  · rfl
  refine congrArg (fun streams => ({session.core with streams := streams} : Core)) ?_
  rw [List.map_map]
  refine List.map_congr_left fun stream _ => ?_
  simp only [Function.comp]
  split
  · rfl
  · split <;> rfl

theorem core_dispatchRstStream : (session.dispatchRstStream frame).core = session.core := by
  unfold dispatchRstStream
  split
  · rfl
  split
  · rfl
  split
  · rfl
  · rename_i stream hfind
    exact core_put_mem hids (mem_of_find hfind).1 rfl

theorem core_dispatchData : (session.dispatchData frame).core = session.core := by
  unfold dispatchData
  dsimp only
  split
  · split <;> rfl
  rename_i stream hfind
  generalize hprogressed : ({session with
    connUnackedBytes := saturatingAdd session.connUnackedBytes frame.length
    streamProgressed := true} : Session δ) = progressed
  have hcore : progressed.core = session.core := hprogressed ▸ rfl
  have hids' : (progressed.streams.map (·.id)).Nodup := hprogressed ▸ hids
  have hmem : stream ∈ progressed.streams := hprogressed ▸ (mem_of_find hfind).1
  rw [← hcore]
  split
  · exact core_reset hids' hmem _ _
  split
  · exact core_put_mem hids' hmem rfl
  split
  · exact core_put_mem hids' hmem rfl
  · exact core_put_mem hids' hmem (by split <;> rfl)

end Quiet

/-- What a stable property owes. -/
structure Stable (δ : Type) (P : Core → Prop) : Prop where
  nodup : ∀ {session : Session δ}, P session.core → (session.streams.map (·.id)).Nodup
  lt_next : ∀ {session : Session δ}, P session.core → ∀ stream ∈ session.streams, stream.id < session.nextStreamId
  levels : ∀ {session : Session δ}, P session.core →
    Level session.connSendWindow ∧ ∀ stream ∈ session.streams, Level stream.sendWindow
  initial : ∀ {session : Session δ}, P session.core → session.remoteInitialWindowSize ≤ maxWindowSize
  sent : ∀ {session session' : Session δ} {stream stream' : Stream} {frames : List Framed}, P session.core →
    stream ∈ session.streams → Sent session stream session' stream' frames → P (session'.put stream').core
  opened : ∀ {session : Session δ} (client : Client), P session.core → session.nextStreamId < maxStreamId →
    P ({session with
      nextStreamId := session.nextStreamId + 2
      streams := session.streams ++
        [Stream.new session.nextStreamId client session.remoteInitialWindowSize]} : Session δ).core
  skipped : ∀ {session : Session δ}, P session.core → session.nextStreamId < maxStreamId →
    P ({session with nextStreamId := session.nextStreamId + 2} : Session δ).core
  removed : ∀ {session : Session δ} {stream old : Stream}, P session.core → old ∈ session.streams →
    stream.core = old.core → P (session.removeStream stream).core

namespace Stable
variable {P : Core → Prop} (hP : Stable δ P)

theorem core_flush (session : Session δ) : session.flush.2.core = session.core := by
  unfold flush
  split
  · rfl
  · split <;> rfl

theorem fatalError_flush (session : Session δ) : session.flush.2.fatalError = session.fatalError := by
  unfold flush
  split
  · rfl
  · split <;> rfl

theorem holds_flush (h : session.Holds P) : session.flush.2.Holds P := by
  intro hfatal
  rw [core_flush]
  exact h (fatalError_flush session ▸ hfatal)

theorem holds_failAll (err : Error) : (session.failAll err).Holds P := by
  intro hfatal
  have hsome : (session.failAll err).fatalError = some (session.fatalError.getD err) :=
    fatalError_flush (writeFrame {session with fatalError := some (session.fatalError.getD err)} _)
  rw [hsome] at hfatal
  exact absurd hfatal (Option.some_ne_none _)

/-- The flush at the end of an entry point -/
theorem keeps_flush (h : session.Holds P) (err : Error) :
    Keeps P (some (if session.flush.1 then session.flush.2 else session.flush.2.failAll err)) := by
  refine ⟨_, rfl, ?_⟩
  split
  · exact holds_flush h
  · exact holds_failAll err

include hP

variable {old : Stream}

theorem put (h : P session.core) (hmem : old ∈ session.streams) (hcore : stream.core = old.core) :
    P (session.put stream).core := by
  rw [core_put_mem (hP.nodup h) hmem hcore]
  exact h

/-! ### Bodies -/

theorem drainSendBody (h : P session.core) (hmem : old ∈ session.streams) (hcore : stream.core = old.core)
    (cap : Nat) : ∃ session' stream', session.drainSendBody stream cap = some (session', stream') ∧
      P (session'.put stream').core ∧ session'.fatalError = session.fatalError ∧ stream'.id = stream.id := by
  have hlevels := hP.levels h
  have hwindow : stream.sendWindow = old.sendWindow := congrArg StreamCore.sendWindow hcore
  obtain ⟨session', stream', frames, hdrain, hsent⟩ :=
    drainSendBody_sent cap (hwindow ▸ hlevels.2 old hmem) hlevels.1
  have hold : Sent session old session stream [] :=
    .changed (congrArg StreamCore.id hcore) (congrArg StreamCore.headerBlock hcore) hwindow
  refine ⟨session', stream', hdrain, hP.sent h hmem (hold.trans hsent), ?_, hsent.id⟩
  obtain ⟨bytes, hsession⟩ := hsent.session
  rw [hsession]

theorem drainPass (slice : Nat) (ids : List Nat) (progressed : Bool) (h : P session.core) :
    ∃ session' progressed', Session.drainPass slice session ids progressed = some (session', progressed') ∧
      P session'.core ∧ session'.fatalError = session.fatalError := by
  induction ids generalizing session progressed with
  | nil => exact ⟨session, progressed, rfl, h, rfl⟩
  | cons id ids ih =>
    unfold Session.drainPass
    cases hfind : session.find id with
    | none => exact ih progressed h
    | some stream =>
      dsimp only
      split
      · exact ih progressed h
      · obtain ⟨after, stream', hdrain, hafter, hfatal, -⟩ := hP.drainSendBody h (mem_of_find hfind).1 rfl slice
        rw [hdrain]
        obtain ⟨session', progressed', hpass, h', hfatal'⟩ := ih _ hafter
        exact ⟨session', progressed', hpass, h', hfatal'.trans hfatal⟩

theorem drainLoop (slice fuel : Nat) (h : P session.core) :
    ∃ session', Session.drainLoop slice fuel session = some session' ∧ P session'.core ∧
      session'.fatalError = session.fatalError := by
  induction fuel generalizing session with
  | zero => exact ⟨session, rfl, h, rfl⟩
  | succ fuel ih =>
    unfold Session.drainLoop
    split
    · obtain ⟨after, progressed, hpass, hafter, hfatal⟩ := hP.drainPass slice (session.streams.map (·.id)) false h
      rw [hpass]
      dsimp only
      split
      · obtain ⟨session', hloop, h', hfatal'⟩ := ih hafter
        exact ⟨session', hloop, h', hfatal'.trans hfatal⟩
      · exact ⟨after, rfl, hafter, hfatal⟩
    · exact ⟨session, rfl, h, rfl⟩

theorem drainSendBodies (h : P session.core) :
    ∃ session', session.drainSendBodies = some session' ∧ P session'.core ∧ session'.fatalError = session.fatalError :=
  hP.drainLoop _ _ h

/-! ### Streams that are opened and removed -/

omit hP in
theorem swapRemove_concat {streams : List Stream} (h : ∀ other ∈ streams, other.id ≠ stream.id) :
    swapRemove (streams ++ [stream]) stream.id = streams := by
  have hindex : (streams ++ [stream]).findIdx? (fun other => other.id == stream.id) = some streams.length := by
    rw [List.findIdx?_append, List.findIdx?_eq_none_iff.mpr fun other hother => by simpa using h other hother]
    simp
  simp only [swapRemove, hindex, List.getLast?_concat, List.set_append_right _ _ (Nat.le_refl _), Nat.sub_self,
    List.set_cons_zero, List.dropLast_concat]

omit hP in
/-- The preface is queued before the first stream. -/
theorem openStream_eq (session : Session δ) (client : Client) (sendWindow : Int) (hnext : session.nextStreamId < maxStreamId) :
    (session.openStream client sendWindow).2 = Stream.new session.nextStreamId client sendWindow ∧
      (session.openStream client sendWindow).1.streams =
        session.streams ++ [Stream.new session.nextStreamId client sendWindow] ∧
      (session.openStream client sendWindow).1.core = ({session with
        nextStreamId := session.nextStreamId + 2
        streams := session.streams ++ [Stream.new session.nextStreamId client sendWindow]} : Session δ).core := by
  have hsaturating : saturatingAdd session.nextStreamId 2 = session.nextStreamId + 2 := by
    have hmax : maxStreamId = 2 ^ 31 - 1 := rfl
    unfold saturatingAdd
    omega
  unfold openStream
  rw [hsaturating]
  dsimp only
  split <;> exact ⟨rfl, rfl, rfl⟩

theorem attach (request : Request) (h : P session.core) (hroom : session.hasHeadroom = true) :
    Keeps P (session.attach request) := by
  have hnext : session.nextStreamId < maxStreamId := by
    unfold hasHeadroom at hroom
    simp only [Bool.and_eq_true, decide_eq_true_eq] at hroom
    exact hroom.2
  have hinitial := hP.initial h
  unfold Session.attach
  rw [Int.min_eq_left (Int.ofNat_le.mpr hinitial), toI32_length hinitial]
  dsimp only
  have hopened := hP.opened request.client h hnext
  have hskipped := hP.skipped h hnext
  obtain ⟨hstream, hstreams, hcore⟩ := openStream_eq session request.client session.remoteInitialWindowSize hnext
  generalize session.openStream request.client session.remoteInitialWindowSize = opened at *
  obtain ⟨prefaced, stream⟩ := opened
  dsimp only at hstream hstreams hcore ⊢
  rw [← hcore] at hopened
  rw [← hstream] at hstreams hcore
  have hmem : stream ∈ prefaced.streams := hstreams ▸ List.mem_concat_self
  have hlevels := hP.levels hopened
  obtain ⟨ok, session', stream', frames, hwrite, hsent, hfailed⟩ :=
    writeRequest_sent request (hlevels.2 stream hmem) hlevels.1
  rw [hwrite]
  have hplain : P ({prefaced with pendingHpackEncCapacity := none} : Session δ).core := hopened
  cases ok with
  | true => exact keeps_flush (fun _ => hP.sent hplain hmem hsent) .writeFailed
  | false =>
    obtain ⟨rfl, rfl⟩ := hfailed rfl
    refine ⟨_, rfl, holds_flush fun _ => ?_⟩
    -- the stream is the last one, and the others are as they were
    have hothers : ∀ other ∈ session.streams, other.id ≠ stream'.id := by
      intro other hother
      rw [hstream]
      exact Nat.ne_of_lt (hP.lt_next h other hother)
    show P {prefaced.core with streams := (swapRemove prefaced.streams stream'.id).map Stream.core}
    rw [hcore, hstreams, swapRemove_concat hothers]
    exact hskipped

theorem drainWaiters (waiters : List Request) (h : session.Holds P) : Keeps P (session.drainWaiters waiters) := by
  induction waiters generalizing session with
  | nil => exact ⟨session, rfl, h⟩
  | cons request waiters ih =>
    unfold Session.drainWaiters
    split
    · exact ih h
    rename_i hlive
    rw [Bool.or_eq_true, not_or] at hlive
    have hfatal : session.fatalError = none := by simpa using hlive.1
    split
    · rename_i hroom
      obtain ⟨session', hattach, h'⟩ := hP.attach request (h hfatal) hroom
      rw [hattach]
      exact ih h'
    · exact ih h

theorem drainPending (h : session.Holds P) : Keeps P session.drainPending := by
  unfold Session.drainPending
  split
  · exact ⟨session, rfl, h⟩
  · exact hP.drainWaiters _ h

theorem adopt (request : Request) (h : P session.core) : Keeps P (session.adopt request) := by
  unfold Session.adopt
  split
  · exact ⟨_, rfl, fun _ => h⟩
  split
  · exact ⟨_, rfl, fun _ => h⟩
  · rename_i hroom
    exact hP.attach request h (by simpa using hroom)

/-- A stream is reset, and put back. -/
theorem rstStream (code : ErrorCode) (h : P session.core) (hmem : old ∈ session.streams) (hcore : stream.core = old.core) :
    P ((session.rstStream stream code).1.put (session.rstStream stream code).2).core := by
  obtain ⟨hsession, hstream, hstreams⟩ := core_rstStream session stream code
  exact hP.put (hsession ▸ h) (hstreams ▸ hmem) (hstream.trans hcore)

omit hP in
/-- A stream that is put has its place. -/
theorem mem_put_self (hmem : old ∈ session.streams) (hid : stream.id = old.id) :
    stream ∈ (session.put stream).streams :=
  List.mem_map.mpr ⟨old, hmem, if_pos (beq_iff_eq.mpr hid.symm)⟩

omit hP in
theorem streams_flush (session : Session δ) : session.flush.2.streams = session.streams := by
  unfold flush
  split
  · rfl
  · split <;> rfl

theorem detachWithFailure (h : P session.core) (hmem : stream ∈ session.streams) :
    P (session.detachWithFailure stream).core := by
  obtain ⟨-, hstream, hstreams⟩ := core_rstStream session stream .cancel
  have hput := hP.rstStream .cancel h hmem rfl
  unfold Session.detachWithFailure
  generalize session.rstStream stream .cancel = reset at *
  have hself : reset.2 ∈ (reset.1.put reset.2).streams :=
    mem_put_self (hstreams ▸ hmem) (congrArg StreamCore.id hstream)
  rw [← core_flush] at hput
  rw [← streams_flush] at hself
  exact hP.removed hput hself rfl

theorem abortByHttpId (asyncHttpId : Nat) (h : P session.core) : P (session.abortByHttpId asyncHttpId).core := by
  unfold Session.abortByHttpId
  split
  · exact h
  split
  · exact h
  · rename_i hfind
    exact hP.detachWithFailure h (List.mem_of_find?_eq_some hfind)

theorem reapAborted (aborted : List Nat) (fuel i : Nat) (h : P session.core) :
    P (Session.reapAborted aborted fuel session i).core := by
  induction fuel generalizing session i with
  | zero => exact h
  | succ fuel ih =>
    unfold Session.reapAborted
    split
    · exact h
    rename_i hget
    split
    · exact ih i (hP.detachWithFailure h (List.mem_of_getElem? hget))
    · exact ih (i + 1) h

theorem streamBodyByHttpId (asyncHttpId : Nat) (data : List UInt8) (ended : Bool) (h : P session.core) :
    Keeps P (session.streamBodyByHttpId asyncHttpId data ended) := by
  unfold Session.streamBodyByHttpId
  split
  · exact ⟨session, rfl, fun _ => h⟩
  rename_i stream hfind
  split
  · rename_i buffer _ _
    have hmem := List.mem_of_find?_eq_some hfind
    generalize hfilled : ({stream with
      client := some ⟨asyncHttpId, .stream (buffer.map (· ++ data)) ended⟩} : Stream) = filled
    have hcore : filled.core = stream.core := hfilled ▸ rfl
    obtain ⟨session', stream', hdrain, hput, -⟩ := hP.drainSendBody h hmem hcore usizeMax
    simp only [hfilled, hdrain]
    exact keeps_flush (fun _ => hput) .writeFailed
  · exact ⟨session, rfl, fun _ => h⟩

/-! ### Entry points of the socket -/

omit hP in
theorem core_replenishWindow (session : Session δ) : session.replenishWindow.core = session.core := by
  have hupdates : ∀ (updates : List Stream) (session : Session δ),
      (updates.foldl (fun session stream => session.writeWindowUpdate stream.id stream.unackedBytes) session).core =
        session.core := by
    intro updates
    induction updates with
    | nil => exact fun _ => rfl
    | cons stream updates ih => exact fun session => ih _
  have hstreams : ∀ (due : Stream → Prop) [DecidablePred due] (session : Session δ),
      ({session with
        streams := session.streams.map fun stream =>
          if due stream then {stream with unackedBytes := 0} else stream} : Session δ).core = session.core := by
    intro due _ session
    have hmap : (session.streams.map fun stream =>
        if due stream then {stream with unackedBytes := 0} else stream).map Stream.core =
          session.streams.map Stream.core := by
      rw [List.map_map]
      refine List.map_congr_left fun stream _ => ?_
      show Stream.core (if due stream then _ else stream) = _
      split <;> rfl
    show Core.mk _ _ _ _ _ _ _ _ _ _ _ = _
    rw [hmap]
    rfl
  unfold replenishWindow
  rw [hupdates, hstreams]
  split <;> rfl

/-- A stream that is delivered keeps its core, and so does the session. -/
theorem core_deliverStream (h : P session.core) (hmem : stream ∈ session.streams) (delivery : Delivery) :
    (session.deliverStream stream delivery).2.1.core = session.core ∧
      (session.deliverStream stream delivery).2.2.core = stream.core := by
  have hcancel : ∀ (stream' : Stream), stream'.core = stream.core →
      ((session.rstStream stream' .cancel).1.put (session.rstStream stream' .cancel).2).flush.2.core = session.core ∧
        (session.rstStream stream' .cancel).2.core = stream.core := by
    intro stream' hcore
    obtain ⟨hsession, hstream, hstreams⟩ := core_rstStream session stream' .cancel
    refine ⟨?_, hstream.trans hcore⟩
    rw [core_flush, core_put, hsession]
    intro old hold hid
    have hid' : old.id = stream.id := hid.trans (congrArg StreamCore.id (hstream.trans hcore))
    rw [List.inj_on_of_nodup_map (hP.nodup h) (hstreams ▸ hold) hmem hid', hstream, hcore]
  unfold deliverStream
  dsimp only
  split
  · exact ⟨rfl, rfl⟩
  split
  · exact hcancel stream rfl
  split
  · exact ⟨rfl, rfl⟩
  split
  · exact hcancel _ rfl
  split
  · exact ⟨rfl, rfl⟩
  split
  · exact ⟨rfl, rfl⟩
  split
  · split
    · exact hcancel _ rfl
    · exact ⟨rfl, rfl⟩
  · exact ⟨rfl, rfl⟩

theorem deliverLoop (fuel i : Nat) (rstAny : Bool) (deliveries : List Delivery) (h : P session.core) :
    P (Session.deliverLoop fuel session i rstAny deliveries).1.core := by
  induction fuel generalizing session i rstAny deliveries with
  | zero => exact h
  | succ fuel ih =>
    unfold Session.deliverLoop
    split
    · exact h
    rename_i stream hget
    obtain ⟨hsession, hstream⟩ := hP.core_deliverStream h (List.mem_of_getElem? hget) (deliveries.head?.getD .idle)
    generalize session.deliverStream stream (deliveries.head?.getD .idle) = delivered at *
    obtain ⟨done, session', stream'⟩ := delivered
    have hold : ∃ old ∈ session'.streams, old.core = stream.core := by
      have hcores : session'.streams.map Stream.core = session.streams.map Stream.core :=
        congrArg Core.streams hsession
      rw [← List.mem_map, hcores]
      exact List.mem_map_of_mem (List.mem_of_getElem? hget)
    obtain ⟨old, hmem, hcore⟩ := hold
    have h' : P session'.core := hsession ▸ h
    cases done with
    | false => exact ih _ _ _ (hP.put h' hmem (hstream.trans hcore.symm))
    | true =>
      have hreset : ∀ opened : Bool, ∃ reset : Session δ × Stream,
          (if opened then session'.rstStream stream' .cancel else (session', stream')) = reset ∧
            reset.1.core = session'.core ∧ reset.2.core = stream'.core ∧ reset.1.streams = session'.streams := by
        intro opened
        cases opened with
        | true => exact ⟨_, rfl, core_rstStream session' stream' .cancel⟩
        | false => exact ⟨_, rfl, rfl, rfl, rfl⟩
      obtain ⟨reset, heq, hsession', hstream', hstreams⟩ := hreset (decide (stream'.state ≠ .closed))
      simp only [decide_eq_true_eq] at heq
      simp only [heq]
      exact ih _ _ _ (hP.removed (hsession' ▸ h') (hstreams ▸ hmem) (hstream'.trans (hstream.trans hcore.symm)))

/-- What comes in is taken, and requests that wait are attached. -/
theorem onDataReceive (lshpack : Lshpack δ) (incoming : List UInt8)
    (hreceive : Keeps P (({session with streamProgressed := false} : Session δ).receive lshpack incoming)) :
    Keeps P (session.onDataReceive lshpack incoming) := by
  obtain ⟨received, hreceive, h⟩ := hreceive
  unfold Session.onDataReceive
  rw [hreceive]
  dsimp only
  generalize hflushed : (if received.flush.1 = true then _ else _ : Session δ) = flushed
  have hflushed : flushed.Holds P := by
    rw [← hflushed]
    split
    · exact holds_flush h
    · exact fun hfatal => absurd hfatal (Option.some_ne_none _)
  cases hfatal : flushed.fatalError with
  | some err => exact ⟨_, rfl, holds_failAll err⟩
  | none => exact hP.drainPending hflushed

theorem onDataDeliver (deliveries : List Delivery) (h : P session.core) : P (session.onDataDeliver deliveries).core := by
  have hdelivering : P ({session with delivering := true} : Session δ).core := h
  have hdelivered := hP.deliverLoop session.streams.length 0 false deliveries hdelivering
  unfold Session.onDataDeliver
  generalize Session.deliverLoop _ _ 0 false deliveries = delivered at *
  obtain ⟨delivered, rstAny⟩ := delivered
  have hreplenished : P ({delivered with delivering := false} : Session δ).replenishWindow.core := by
    rw [core_replenishWindow]
    exact hdelivered
  dsimp only
  split
  · rw [core_flush]
    exact hreplenished
  · exact hreplenished

/-- What comes in is taken, and everything that it wakes keeps the property. -/
theorem onData (lshpack : Lshpack δ) (incoming : List UInt8) (deliveries : List Delivery)
    (hreceive : Keeps P (({session with streamProgressed := false} : Session δ).receive lshpack incoming)) :
    Keeps P (session.onData lshpack incoming deliveries) := by
  obtain ⟨received, hreceive, h⟩ := hP.onDataReceive lshpack incoming hreceive
  unfold Session.onData
  rw [hreceive]
  dsimp only
  split
  · exact ⟨received, rfl, h⟩
  rename_i hlive
  obtain ⟨drained, hdrain, hdrained, -⟩ := hP.drainSendBodies (h (by simpa using hlive))
  rw [hdrain]
  dsimp only
  split
  · exact ⟨_, rfl, holds_failAll .writeFailed⟩
  have hdelivered : P (drained.flush.2.onDataDeliver deliveries).core := by
    refine hP.onDataDeliver deliveries ?_
    rw [core_flush]
    exact hdrained
  generalize drained.flush.2.onDataDeliver deliveries = delivered at *
  split
  · exact ⟨delivered, rfl, fun _ => hdelivered⟩
  obtain ⟨pending, hpending, h⟩ := hP.drainPending fun _ => hdelivered
  rw [hpending]
  refine ⟨_, rfl, ?_⟩
  split
  · exact h
  split
  · exact holds_flush h
  · exact holds_failAll .writeFailed

/-- Room in the socket wakes the bodies. -/
theorem onWritable (aborted : List Nat) (h : P session.core) : Keeps P (session.onWritable aborted) := by
  unfold Session.onWritable
  split
  · exact ⟨_, rfl, holds_failAll .writeFailed⟩
  have hflushed : P session.flush.2.core := core_flush session ▸ h
  obtain ⟨drained, hdrain, hdrained, -⟩ := hP.drainSendBodies hflushed
  rw [hdrain]
  dsimp only
  split
  · exact ⟨_, rfl, holds_failAll .writeFailed⟩
  · refine ⟨_, rfl, fun _ => hP.reapAborted aborted _ 0 ?_⟩
    rw [core_flush]
    exact hdrained

omit hP in
theorem onIdleData (lshpack : Lshpack δ) (incoming : List UInt8) (hreceive : Keeps P (session.receive lshpack incoming)) :
    Keeps P (session.onIdleData lshpack incoming) := by
  obtain ⟨received, hreceive, h⟩ := hreceive
  rw [Session.onIdleData, hreceive]
  refine ⟨_, rfl, ?_⟩
  dsimp only
  split
  · exact holds_flush h
  · exact fun hfatal => absurd hfatal (Option.some_ne_none _)

end Stable
end Session
end Funbun.Http2
