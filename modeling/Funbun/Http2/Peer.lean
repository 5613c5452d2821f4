import Funbun.Http2.FlowRuns

/-! What the peer has set and credited is what its frames say. -/
namespace Funbun.Http2
open Library

variable {δ : Type}

/-- What a session has from its peer -/
structure Peer where
  initialWindowSize : Nat
  maxFrameSize : Nat
  credits : List (Nat × Int)

def Core.peer (core : Core) : Peer := ⟨core.remoteInitialWindowSize, core.remoteMaxFrameSize, core.credits⟩

namespace Peer

def set (peer : Peer) (type value : Nat) : Peer :=
  match type with
  | 0x5 => {peer with maxFrameSize := value}
  | 0x4 => {peer with initialWindowSize := value}
  | _ => peer

/-- Of each setting the last one counts. -/
def settings (peer : Peer) : List UInt8 → Peer
  | t₀ :: t₁ :: v₀ :: v₁ :: v₂ :: v₃ :: payload =>
    (peer.set (ofBeBytes [t₀, t₁]) (ofBeBytes [v₀, v₁, v₂, v₃])).settings payload
  | _ => peer

/-- What frames make of it: a WINDOW_UPDATE frame credits, or is not accepted. -/
inductive Told : List Frame → Peer → Prop
  | nil : Told [] ⟨defaultWindowSize, defaultMaxFrameSize, []⟩
  | settings {sent : List Frame} {peer : Peer} {frame : Frame} (h : Told sent peer) (type : frame.type = .settings)
      (ack : has frame.flags Flags.ack = false) : Told (sent ++ [frame]) (peer.settings frame.payload)
  | credit {sent : List Frame} {peer : Peer} {frame : Frame} (h : Told sent peer) (type : frame.type = .windowUpdate) :
      Told (sent ++ [frame])
        {peer with credits := peer.credits ++ [(uint31 frame.streamId, (uint31 (ofBeBytes frame.payload) : Int))]}
  | other {sent : List Frame} {peer : Peer} {frame : Frame} (h : Told sent peer)
      (type : frame.type = .settings → has frame.flags Flags.ack = true) : Told (sent ++ [frame]) peer

end Peer

namespace Session
variable {session session' : Session δ} {sent : List Frame} {frame : Frame}

theorem peer_applySetting {type value : Nat} (h : session.applySetting type value = some (false, session')) :
    session'.core.peer = session.core.peer.set type value := by
  unfold applySetting at h
  unfold Peer.set
  split at h
  · split at h <;> cases h
    rfl
  · cases h
    rfl
  · cases h
    rfl
  · split at h
    · cases h
    dsimp only at h
    split at h
    · cases h
    · split at h <;> cases h
      rfl
  · rename_i hsize _ _ hwindow
    cases h
    split
    · exact absurd rfl hsize
    · exact absurd rfl hwindow
    · rfl

theorem peer_applySettings {payload : List UInt8} (h : session.applySettings payload = some (false, session')) :
    session'.core.peer = session.core.peer.settings payload := by
  fun_induction applySettings session payload with
  | case1 => cases h
  | case2 => cases h
  | case3 session _ _ _ _ _ _ _ session'' hsetting ih =>
    rw [ih h, peer_applySetting hsetting]
    rfl
  | case4 session payload hshort =>
    cases h
    exact (Peer.settings.eq_2 _ _ hshort).symm

theorem peer_rstStream (session : Session δ) (stream : Stream) (code : ErrorCode) :
    (session.rstStream stream code).1.core.peer = session.core.peer :=
  congrArg Core.peer (core_rstStream session stream code).1

variable (h : session.core.peer.Told sent)
include h

theorem dispatchSettings_told (hflow : Flow session.core) (htype : frame.type = .settings) :
    Keeps (fun core => core.peer.Told (sent ++ [frame])) (session.dispatchSettings frame) := by
  unfold dispatchSettings
  split
  · exact ⟨_, rfl, holds_fail session _⟩
  split
  · rename_i hack
    split
    · exact ⟨_, rfl, holds_fail session _⟩
    · exact ⟨session, rfl, fun _ => .other h fun _ => hack⟩
  rename_i hack
  split
  · exact ⟨_, rfl, holds_fail session _⟩
  obtain ⟨overflows, session', happly, -, hfatal⟩ := applySettings_flow frame.payload hflow
  rw [happly]
  cases overflows with
  | true => exact ⟨session', rfl, fun hnone => absurd hnone (hfatal rfl)⟩
  | false =>
    have htold := peer_applySettings happly ▸ h.settings htype (by simpa using hack)
    dsimp only
    split
    · exact ⟨_, rfl, holds_fail session' _⟩
    · exact ⟨_, rfl, fun _ => htold⟩

theorem dispatchWindowUpdate_told (hflow : Flow session.core) (htype : frame.type = .windowUpdate) :
    Keeps (fun core => core.peer.Told (sent ++ [frame])) (session.dispatchWindowUpdate frame) := by
  have hother : session.core.peer.Told (sent ++ [frame]) := .other h fun hset => by rw [htype] at hset; cases hset
  have hcredit := h.credit htype
  obtain ⟨session', hdispatch, -⟩ := dispatchWindowUpdate_flow hflow frame
  refine ⟨session', hdispatch, fun hok => ?_⟩
  have hfail : ∀ {err : Error}, some (session.fail err) ≠ some session' := by
    rintro err ⟨⟩
    exact Option.some_ne_none _ hok
  have hreset : ∀ {stream : Stream} {code : ErrorCode} {err : Option Error},
      some ((session.rstStream stream code).1.put {(session.rstStream stream code).2 with fatalError := err}) = some session' →
      session'.core.peer.Told (sent ++ [frame]) := by
    rintro stream code err ⟨⟩
    exact Eq.mpr (congrArg (Peer.Told _) (peer_rstStream session stream code)) hother
  unfold dispatchWindowUpdate at hdispatch
  split at hdispatch
  · exact (hfail hdispatch).elim
  rw [toI32_length (uint31_le _)] at hdispatch
  dsimp only at hdispatch
  split at hdispatch
  · rename_i hzero
    split at hdispatch
    · exact (hfail hdispatch).elim
    split at hdispatch
    · exact (hfail hdispatch).elim
    · obtain ⟨next, -, rfl⟩ := Option.map_eq_some_iff.mp hdispatch
      rw [hzero] at hcredit
      exact hcredit
  split at hdispatch
  · rename_i stream hfind
    split at hdispatch
    · exact hreset hdispatch
    split at hdispatch
    · exact hreset hdispatch
    · obtain ⟨next, -, rfl⟩ := Option.map_eq_some_iff.mp hdispatch
      rw [← (mem_of_find hfind).2] at hcredit
      exact hcredit
  split at hdispatch
  · exact (hfail hdispatch).elim
  · exact Option.some.inj hdispatch ▸ hother

omit h in
theorem peer_decodeHeaderBlock (lshpack : Lshpack δ) (session : Session δ) (stream : Stream) :
    (session.decodeHeaderBlock lshpack stream).1.core.peer = session.core.peer := by
  unfold decodeHeaderBlock
  dsimp only
  generalize decodeLoop lshpack stream.statusCode _ _ stream.headerBlock = decoded
  obtain ⟨_ | err, fields⟩ := decoded
  · obtain ⟨frames, hsent⟩ := @applyHeaderBlock_sent δ
      {session with hpack := fields.hpack, fed := session.fed ++ [fields.taken]}
      {stream with decodedBytes := fields.decodedBytes, headerBlock := []} stream.decodedBytes.length fields
    obtain ⟨bytes, hsession⟩ := hsent.session
    dsimp only
    rw [hsession]
    rfl
  · rfl

theorem dispatchFrame_told (lshpack : Lshpack δ) (hflow : Flow session.core) (frame : Frame) :
    Keeps (fun core => core.peer.Told (sent ++ [frame])) (session.dispatchFrame lshpack frame) := by
  have hother : ∀ {session' : Session δ}, frame.type ≠ .settings → session'.core.peer = session.core.peer →
      Keeps (fun core => core.peer.Told (sent ++ [frame])) (some session') :=
    fun hne hpeer => ⟨_, rfl, fun _ => Eq.mpr (congrArg (Peer.Told _) hpeer) (.other h fun hset => absurd hset hne)⟩
  have hids := flow_stable.nodup hflow
  unfold dispatchFrame
  split
  · exact ⟨_, rfl, holds_fail session _⟩
  split
  · exact ⟨_, rfl, holds_fail session _⟩
  cases htype : frame.type with
  | settings => exact dispatchSettings_told h hflow htype
  | windowUpdate => exact dispatchWindowUpdate_told h hflow htype
  | pushPromise => exact ⟨_, rfl, holds_fail session _⟩
  | altsvc | origin | other => exact hother (by rw [htype]; nofun) rfl
  | ping => exact hother (by rw [htype]; nofun) (congrArg Core.peer (core_dispatchPing frame))
  | priority => exact hother (by rw [htype]; nofun) (congrArg Core.peer (core_dispatchPriority frame))
  | goaway => exact hother (by rw [htype]; nofun) (congrArg Core.peer (core_dispatchGoaway frame))
  | rstStream => exact hother (by rw [htype]; nofun) (congrArg Core.peer (core_dispatchRstStream hids frame))
  | data => exact hother (by rw [htype]; nofun) (congrArg Core.peer (core_dispatchData hids frame))
  | headers =>
    refine hother (by rw [htype]; nofun) ?_
    unfold dispatchHeaders
    repeat' split
    all_goals first
      | rfl
      | exact peer_decodeHeaderBlock lshpack _ _
  | continuation =>
    refine hother (by rw [htype]; nofun) ?_
    unfold dispatchContinuation
    repeat' split
    all_goals first
      | rfl
      | exact peer_decodeHeaderBlock lshpack _ _

end Session
end Funbun.Http2
