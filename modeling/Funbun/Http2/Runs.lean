import Funbun.Http2.Stable

/-! Runs of a session: its entry points and its operations, in any order, until there is a fatal error. -/
namespace Funbun.Http2
open Library

variable {δ : Type}

/-- What may happen to a session. A stream goes by its id; one that is not there is left alone. -/
inductive Event where
  | onData (incoming : List UInt8) (deliveries : List Delivery)
  | onIdleData (incoming : List UInt8)
  | onWritable (aborted : List Nat)
  | adopt (request : Request)
  | attach (request : Request)
  | streamBodyByHttpId (asyncHttpId : Nat) (data : List UInt8) (ended : Bool)
  | abortByHttpId (asyncHttpId : Nat)
  | flush
  | writeDataWindowed (id : Nat) (data : List UInt8) (endStream : Bool) (cap : Nat)
  | drainSendBody (id : Nat) (cap : Nat)
  | drainSendBodies
  | rstStream (id : Nat) (code : ErrorCode)
  | removeStream (id : Nat)
  | detachWithFailure (id : Nat)

/-- The bytes that come in. -/
def Event.incoming : Event → List UInt8
  | .onData incoming _ | .onIdleData incoming => incoming
  | _ => []

/-- The bytes that come in, one event after the other. -/
def received (events : List Event) : List UInt8 := events.flatMap Event.incoming

namespace Session

/-- The stream of an id is used, if it is there. -/
def withStream (session : Session δ) (id : Nat) (use : Stream → Option (Session δ)) : Option (Session δ) :=
  match session.find id with
  | none => some session
  | some stream => use stream

/-- What an event makes of a session. `attach` asserts that there is room. -/
def step (lshpack : Lshpack δ) (session : Session δ) : Event → Option (Session δ)
  | .onData incoming deliveries => session.onData lshpack incoming deliveries
  | .onIdleData incoming => session.onIdleData lshpack incoming
  | .onWritable aborted => session.onWritable aborted
  | .adopt request => session.adopt request
  | .attach request => if session.hasHeadroom then session.attach request else some session
  | .streamBodyByHttpId asyncHttpId data ended => session.streamBodyByHttpId asyncHttpId data ended
  | .abortByHttpId asyncHttpId => some (session.abortByHttpId asyncHttpId)
  | .flush => some session.flush.2
  | .writeDataWindowed id data endStream cap => session.withStream id fun stream =>
      (session.writeDataWindowed stream data endStream cap).map fun r => r.1.put r.2.1
  | .drainSendBody id cap => session.withStream id fun stream =>
      (session.drainSendBody stream cap).map fun r => r.1.put r.2
  | .drainSendBodies => session.drainSendBodies
  | .rstStream id code => session.withStream id fun stream =>
      some ((session.rstStream stream code).1.put (session.rstStream stream code).2)
  | .removeStream id => session.withStream id fun stream => some (session.removeStream stream)
  | .detachWithFailure id => session.withStream id fun stream => some (session.detachWithFailure stream)

/-- A run, until there is a fatal error. -/
def run (lshpack : Lshpack δ) : Session δ → List Event → Option (Session δ)
  | session, [] => some session
  | session, event :: events =>
    if session.fatalError.isSome then some session
    else match session.step lshpack event with
      | none => none
      | some session => run lshpack session events

namespace Stable
variable {session : Session δ}

/-- A stream that is there -/
theorem keeps_withStream {P : Core → Prop} (h : P session.core) (id : Nat) {use : Stream → Option (Session δ)}
    (huse : ∀ stream ∈ session.streams, Keeps P (use stream)) : Keeps P (session.withStream id use) := by
  unfold withStream
  cases hfind : session.find id with
  | none => exact ⟨session, rfl, fun _ => h⟩
  | some stream => exact huse stream (mem_of_find hfind).1

section Family
variable {P : List UInt8 → Core → Prop} (hP : ∀ bytes, Stable δ (P bytes)) {lshpack : Lshpack δ}
  (hreceive : ∀ (bytes incoming : List UInt8) (session : Session δ), session.fatalError = none → P bytes session.core →
    Keeps (P (bytes ++ incoming)) (session.receive lshpack incoming))
include hP hreceive

/-- Every event keeps a stable property of what was received, if what comes in keeps it. -/
theorem keeps_step {bytes : List UInt8} (hfatal : session.fatalError = none) (h : P bytes session.core) (event : Event) :
    Keeps (P (bytes ++ event.incoming)) (session.step lshpack event) := by
  have hstable := hP bytes
  have hquiet : ∀ {result : Option (Session δ)}, Keeps (P bytes) result → Keeps (P (bytes ++ [])) result := by
    rw [List.append_nil]
    exact id
  cases event with
  | onData incoming deliveries =>
    exact (hP (bytes ++ incoming)).onData lshpack incoming deliveries (hreceive bytes incoming _ hfatal h)
  | onIdleData incoming => exact onIdleData lshpack incoming (hreceive bytes incoming session hfatal h)
  | onWritable aborted => exact hquiet (hstable.onWritable aborted h)
  | adopt request => exact hquiet (hstable.adopt request h)
  | attach request =>
    apply hquiet
    show Keeps _ (if session.hasHeadroom = true then _ else _)
    split
    · rename_i hroom
      exact hstable.attach request h hroom
    · exact ⟨session, rfl, fun _ => h⟩
  | streamBodyByHttpId asyncHttpId data ended => exact hquiet (hstable.streamBodyByHttpId asyncHttpId data ended h)
  | abortByHttpId asyncHttpId => exact hquiet ⟨_, rfl, fun _ => hstable.abortByHttpId asyncHttpId h⟩
  | flush => exact hquiet ⟨_, rfl, holds_flush fun _ => h⟩
  | writeDataWindowed id data endStream cap =>
    refine hquiet (keeps_withStream h id fun stream hmem => ?_)
    have hlevels := hstable.levels h
    obtain ⟨session', stream', n, frames, hloop, hsent, -⟩ := writeDataLoop_sent endStream cap (data.length + 1)
      session stream data 0 (hlevels.2 stream hmem) hlevels.1
    rw [writeDataWindowed, hloop]
    exact ⟨_, rfl, fun _ => hstable.sent h hmem hsent⟩
  | drainSendBody id cap =>
    refine hquiet (keeps_withStream h id fun stream hmem => ?_)
    obtain ⟨session', stream', hdrain, hput, -⟩ := hstable.drainSendBody h hmem rfl cap
    rw [hdrain]
    exact ⟨_, rfl, fun _ => hput⟩
  | drainSendBodies =>
    obtain ⟨session', hdrain, h', -⟩ := hstable.drainSendBodies h
    exact hquiet ⟨session', hdrain, fun _ => h'⟩
  | rstStream id code =>
    exact hquiet (keeps_withStream h id fun stream hmem => ⟨_, rfl, fun _ => hstable.rstStream code h hmem rfl⟩)
  | removeStream id =>
    exact hquiet (keeps_withStream h id fun stream hmem => ⟨_, rfl, fun _ => hstable.removed h hmem rfl⟩)
  | detachWithFailure id =>
    exact hquiet (keeps_withStream h id fun stream hmem => ⟨_, rfl, fun _ => hstable.detachWithFailure h hmem⟩)

theorem keeps_run (events : List Event) (bytes : List UInt8) (h : session.Holds (P bytes)) :
    Keeps (P (bytes ++ received events)) (session.run lshpack events) := by
  induction events generalizing session bytes with
  | nil =>
    show Keeps (P (bytes ++ [])) _
    rw [List.append_nil]
    exact ⟨session, rfl, h⟩
  | cons event events ih =>
    unfold run
    split
    · rename_i hfatal
      refine ⟨session, rfl, fun hnone => ?_⟩
      rw [hnone] at hfatal
      exact absurd hfatal (by decide)
    · rename_i hfatal
      have hfatal : session.fatalError = none := by simpa using hfatal
      obtain ⟨session', hstep, h'⟩ := keeps_step hP hreceive hfatal (h hfatal) event
      rw [hstep]
      have hbytes : bytes ++ received (event :: events) = (bytes ++ event.incoming) ++ received events := by
        rw [List.append_assoc]
        rfl
      rw [hbytes]
      exact ih _ h'

end Family

end Stable
end Session
end Funbun.Http2
