import Funbun.Http2.Flow

/-! Flow control over runs. -/
namespace Funbun.Http2
open Library

variable {δ : Type}

/-- The windows of a session are balanced. -/
def Flow (core : Core) : Prop := core.accounts.Balanced

theorem Flow.of_eq {core : Core} {accounts : Accounts} (h : accounts.Balanced) (heq : core.accounts = accounts) : Flow core := by
  show core.accounts.Balanced
  rw [heq]
  exact h

namespace Session
variable {session : Session δ} {stream : Stream}

theorem windows_eq (session : Session δ) :
    session.core.accounts.windows = session.streams.map fun stream => (stream.id, stream.sendWindow) :=
  List.map_map

theorem mem_windows (hmem : stream ∈ session.streams) : (stream.id, stream.sendWindow) ∈ session.core.accounts.windows := by
  rw [windows_eq]
  exact List.mem_map_of_mem (f := fun stream : Stream => (stream.id, stream.sendWindow)) hmem

theorem ids_eq (session : Session δ) : session.core.accounts.windows.map (·.1) = session.streams.map (·.id) := by
  rw [windows_eq, List.map_map]
  rfl

/-- The window of a stream that is put is set. -/
theorem windows_put (session : Session δ) (stream : Stream) :
    (session.put stream).core.accounts.windows =
      session.core.accounts.windows.map fun w => if w.1 = stream.id then (stream.id, stream.sendWindow) else w := by
  rw [windows_eq, windows_eq, List.map_map]
  show (session.streams.map _).map _ = _
  rw [List.map_map]
  refine List.map_congr_left fun old _ => ?_
  show Prod.mk (Stream.id (if old.id == stream.id then stream else old)) _ = _
  by_cases hid : old.id = stream.id
  · simp only [Function.comp, hid, beq_self_eq_true, if_pos]
  · simp only [Function.comp, beq_eq_false_iff_ne.mpr hid, if_neg hid, Bool.false_eq_true, if_false]

theorem sent_flow {session' : Session δ} {stream' : Stream} {frames : List Framed} (h : Flow session.core)
    (hmem : (stream.id, stream.sendWindow) ∈ session.core.accounts.windows)
    (hsent : Sent session stream session' stream' frames) : Flow (session'.put stream').core := by
  have hwindow := hsent.window
  have hconn := hsent.conn
  have hcovered : size frames = 0 ∨ 0 ≤ stream.sendWindow - size frames ∧ 0 ≤ session.connSendWindow - size frames := by
    rw [← hwindow, ← hconn]
    exact hsent.covered
  have happend := Accounts.Balanced.framed_append h hmem hsent.own hsent.fits hcovered
  have hwindows := windows_put session' stream'
  rw [hsent.id, hwindow] at hwindows
  obtain ⟨bytes, rfl⟩ := hsent.session
  exact .of_eq happend (Accounts.ext hwindows rfl rfl rfl rfl rfl)

theorem flow_stable : Stable δ Flow where
  nodup := by
    intro session h
    rw [← ids_eq]
    exact Accounts.Balanced.nodup h
  lt_next := fun h stream hmem => (Accounts.Balanced.ids h _ (mem_windows hmem)).2
  levels := fun h => ⟨Accounts.Balanced.level_conn h, fun stream hmem => Accounts.Balanced.level h (mem_windows hmem)⟩
  initial := fun h => Accounts.Balanced.initial h
  sent := fun h hmem hsent => sent_flow h (mem_windows hmem) hsent
  opened := by
    intro session client h hnext
    have hopened := Accounts.Balanced.opened h
    have hwindows : (({session with
        nextStreamId := session.nextStreamId + 2
        streams := session.streams ++ [Stream.new session.nextStreamId client session.remoteInitialWindowSize]} :
          Session δ).core.accounts.windows) =
        session.core.accounts.windows ++ [(session.nextStreamId, (session.remoteInitialWindowSize : Int))] := by
      rw [windows_eq, windows_eq, List.map_append]
      rfl
    exact .of_eq hopened (Accounts.ext hwindows rfl rfl rfl rfl rfl)
  skipped := fun h _ => Accounts.Balanced.skipped h
  removed := by
    intro session stream old h hmem hcore
    have hid : stream.id = old.id := congrArg StreamCore.id hcore
    have hids : (session.streams.map (·.id)).Nodup := by
      rw [← ids_eq]
      exact Accounts.Balanced.nodup h
    have hremoved : Accounts.Balanced {session.core.accounts with windows := (session.removeStream stream).core.accounts.windows} := by
      refine Accounts.Balanced.removed h ?_ ?_
      · rw [ids_eq]
        show ((swapRemove session.streams stream.id).map (·.id)).Nodup
        rw [hid]
        exact (nodup_swapRemove hids hmem).1
      · intro w hw
        rw [windows_eq] at hw
        obtain ⟨other, hother, rfl⟩ := List.mem_map.mp hw
        exact mem_windows (mem_of_mem_swapRemove hother)
    exact hremoved

/-! ### What comes in -/

/-- A stream is put whose window is as it was. -/
theorem flow_put (h : Flow session.core) {old : Stream} (hmem : old ∈ session.streams) (hid : stream.id = old.id)
    (hwindow : stream.sendWindow = old.sendWindow) : Flow (session.put stream).core := by
  have hids : (session.streams.map (·.id)).Nodup := flow_stable.nodup h
  have hwindows : (session.put stream).core.accounts.windows = session.core.accounts.windows := by
    rw [windows_eq, windows_eq]
    refine map_put _ fun other hother heq => ?_
    rw [List.inj_on_of_nodup_map hids hother hmem (heq.trans hid), hid, hwindow]
  exact .of_eq h (Accounts.ext hwindows rfl rfl rfl rfl rfl)

theorem holds_fail {P : Core → Prop} (session : Session δ) (err : Error) : (session.fail err).Holds P :=
  fun hfatal => absurd hfatal (Option.some_ne_none _)

/-! ### Header blocks -/

theorem decodeHeaderBlock_flow (lshpack : Lshpack δ) (h : Flow session.core)
    (hmem : (stream.id, stream.sendWindow) ∈ session.core.accounts.windows) :
    ((session.decodeHeaderBlock lshpack stream).1.put (session.decodeHeaderBlock lshpack stream).2).Holds Flow := by
  unfold decodeHeaderBlock
  dsimp only
  generalize decodeLoop lshpack stream.statusCode _ _ stream.headerBlock = decoded
  obtain ⟨err, fields⟩ := decoded
  dsimp only
  cases err with
  | some err => exact fun hfatal => absurd hfatal (Option.some_ne_none err)
  | none =>
    generalize hfed : ({session with hpack := fields.hpack, fed := session.fed ++ [fields.taken]} : Session δ) = fed
    generalize hstream : ({stream with decodedBytes := fields.decodedBytes, headerBlock := []} : Stream) = cleared
    have hmem' : (cleared.id, cleared.sendWindow) ∈ fed.core.accounts.windows := by
      rw [← hfed, ← hstream]
      exact hmem
    have happly : ∃ frames, Sent fed cleared (fed.applyHeaderBlock cleared stream.decodedBytes.length fields).1
        (fed.applyHeaderBlock cleared stream.decodedBytes.length fields).2 frames := applyHeaderBlock_sent _ fields
    obtain ⟨frames, hsent⟩ := happly
    exact fun _ => sent_flow (hfed ▸ h) hmem' hsent

theorem decodeDiscardOrphan_flow (lshpack : Lshpack δ) (h : Flow session.core) :
    (session.decodeDiscardOrphan lshpack).Holds Flow :=
  fun _ => h

/-- A block of a stream that is there -/
theorem decode_flow (lshpack : Lshpack δ) (h : Flow session.core) (hmem : stream ∈ session.streams)
    {decoded : Stream} (hid : decoded.id = stream.id) (hwindow : decoded.sendWindow = stream.sendWindow) :
    ((session.decodeHeaderBlock lshpack decoded).1.put (session.decodeHeaderBlock lshpack decoded).2).Holds Flow := by
  refine decodeHeaderBlock_flow lshpack h ?_
  rw [hid, hwindow]
  exact mem_windows hmem

theorem dispatchHeaders_flow (lshpack : Lshpack δ) (h : Flow session.core) (frame : Frame) :
    (session.dispatchHeaders lshpack frame).Holds Flow := by
  unfold dispatchHeaders
  split
  · split
    · exact holds_fail session _
    split
    · exact holds_fail session _
    split
    · exact holds_fail session _
    dsimp only
    split
    · exact decodeDiscardOrphan_flow lshpack h
    · exact fun _ => h
  · rename_i stream hfind
    dsimp only
    generalize hprogressed : ({session with streamProgressed := true} : Session δ) = progressed
    have hflow : Flow progressed.core := hprogressed ▸ h
    have hmem : stream ∈ progressed.streams := hprogressed ▸ (mem_of_find hfind).1
    split
    · exact holds_fail progressed _
    split
    · exact holds_fail progressed _
    split
    · exact decode_flow lshpack hflow hmem (by split <;> rfl) (by split <;> rfl)
    · exact fun _ => flow_put hflow hmem rfl rfl

theorem dispatchContinuation_flow (lshpack : Lshpack δ) (h : Flow session.core) (frame : Frame) :
    (session.dispatchContinuation lshpack frame).Holds Flow := by
  unfold dispatchContinuation
  split
  · exact holds_fail session _
  split
  · rename_i stream hfind
    have hmem := (mem_of_find hfind).1
    split
    · exact holds_fail session _
    dsimp only
    split
    · have hflow : Flow ({session with expectingContinuation := 0} : Session δ).core := h
      exact decode_flow lshpack hflow hmem (by split <;> rfl) (by split <;> rfl)
    · exact fun _ => flow_put h hmem rfl rfl
  · split
    · exact holds_fail session _
    dsimp only
    split
    · exact decodeDiscardOrphan_flow lshpack h
    · exact fun _ => h

/-! ### Windows -/

theorem uint31_le (value : Nat) : uint31 value ≤ maxWindowSize := Nat.le_of_lt_succ (Nat.mod_lt value (by decide))

theorem dispatchWindowUpdate_flow (h : Flow session.core) (frame : Frame) :
    Keeps Flow (session.dispatchWindowUpdate frame) := by
  unfold dispatchWindowUpdate
  split
  · exact ⟨_, rfl, holds_fail session _⟩
  rw [toI32_length (uint31_le _)]
  generalize uint31 (ofBeBytes frame.payload) = inc at *
  dsimp only
  have hlevels := flow_stable.levels h
  split
  · split
    · exact ⟨_, rfl, holds_fail session _⟩
    split
    · exact ⟨_, rfl, holds_fail session _⟩
    · rename_i hle
      have hconn := hlevels.1
      have hlevel : Level (session.connSendWindow + inc) := by
        unfold Level at *
        omega
      rw [toI32_eq hlevel]
      refine ⟨_, rfl, fun _ => ?_⟩
      exact Accounts.Balanced.credit_conn h (Int.natCast_nonneg inc) (Int.not_lt.mp hle)
  · split
    · rename_i stream hfind
      have hmem := (mem_of_find hfind).1
      split
      · exact ⟨_, rfl, fun _ => core_reset (flow_stable.nodup h) hmem _ _ ▸ h⟩
      split
      · exact ⟨_, rfl, fun _ => core_reset (flow_stable.nodup h) hmem _ _ ▸ h⟩
      · rename_i hle
        have hwindow := hlevels.2 stream hmem
        have hlevel : Level (stream.sendWindow + inc) := by
          unfold Level at *
          omega
        rw [toI32_eq hlevel]
        refine ⟨_, rfl, fun _ => ?_⟩
        have hcredit := Accounts.Balanced.credit h (mem_windows hmem) (Int.natCast_nonneg inc) (Int.not_lt.mp hle)
        exact .of_eq hcredit (Accounts.ext (windows_put session _) rfl rfl rfl rfl rfl)
    · split
      · exact ⟨_, rfl, holds_fail session _⟩
      · exact ⟨session, rfl, fun _ => h⟩

/-- The windows of the streams are shifted, if none goes past the greatest. -/
theorem shiftWindows_eq {delta : Int} {streams : List Stream}
    (hlow : ∀ stream ∈ streams, -(maxWindowSize : Int) ≤ stream.sendWindow + delta) :
    ∃ overflows shifted, shiftWindows delta streams = some (overflows, shifted) ∧
      (overflows = false → (∀ stream ∈ streams, stream.sendWindow + delta ≤ maxWindowSize) ∧
        shifted = streams.map fun stream => {stream with sendWindow := stream.sendWindow + delta}) := by
  induction streams with
  | nil => exact ⟨false, [], rfl, fun _ => ⟨List.forall_mem_nil _, rfl⟩⟩
  | cons stream streams ih =>
    obtain ⟨hlow₁, hlow⟩ := List.forall_mem_cons.mp hlow
    unfold shiftWindows
    dsimp only
    split
    · exact ⟨true, _, rfl, fun h => absurd h (by decide)⟩
    · rename_i hle
      obtain ⟨overflows, shifted, hshift, hrest⟩ := ih hlow
      rw [toI32_eq ⟨hlow₁, Int.not_lt.mp hle⟩, hshift]
      refine ⟨overflows, _, rfl, fun hover => ?_⟩
      obtain ⟨hall, rfl⟩ := hrest hover
      exact ⟨List.forall_mem_cons.mpr ⟨Int.not_lt.mp hle, hall⟩, rfl⟩

/-- What a setting, or a list of them, makes of a session: the windows are balanced, or there is a fatal error. -/
def Applied (result : Option (Bool × Session δ)) : Prop :=
  ∃ overflows session, result = some (overflows, session) ∧ (overflows = false → Flow session.core) ∧
    (overflows = true → session.fatalError ≠ none)

theorem Applied.given (h : Flow session.core) : Applied (some (false, session)) :=
  ⟨false, session, rfl, fun _ => h, fun h => absurd h (by decide)⟩

theorem Applied.fail (session : Session δ) (err : Error) : Applied (some (true, session.fail err)) :=
  ⟨true, _, rfl, fun h => absurd h (by decide), fun _ => Option.some_ne_none _⟩

theorem applySetting_flow (h : Flow session.core) (type value : Nat) : Applied (session.applySetting type value) := by
  unfold applySetting
  split
  · split
    · exact .fail session _
    · exact .given h
  · exact .given h
  · exact .given h
  · split
    · exact .fail session _
    rename_i hvalue
    have hvalue := Nat.not_lt.mp hvalue
    -- a window goes below the least only by bytes that were framed past all credits
    have hlow : ∀ stream ∈ session.streams,
        -(maxWindowSize : Int) ≤ stream.sendWindow + ((value : Int) - session.remoteInitialWindowSize) := by
      intro stream hmem
      have hlevel : stream.sendWindow = (session.core.accounts.window stream.id).level :=
        Accounts.Balanced.windows h _ (mem_windows hmem)
      have hspent : (session.core.accounts.window stream.id).spent ≤
          maxWindowSize + (session.core.accounts.window stream.id).credited :=
        (Accounts.Balanced.sound h _ (mem_windows hmem)).spent_le
      have hinitial : ((session.core.accounts.window stream.id).initial : Int) = session.remoteInitialWindowSize := rfl
      unfold Window.level at hlevel
      omega
    obtain ⟨overflows, shifted, hshift, hrest⟩ := shiftWindows_eq hlow
    dsimp only
    rw [hshift]
    cases overflows with
    | true => exact .fail _ _
    | false =>
      obtain ⟨hall, rfl⟩ := hrest rfl
      have hresize := Accounts.Balanced.resize h hvalue (by
        intro w hw
        rw [windows_eq] at hw
        obtain ⟨stream, hmem, rfl⟩ := List.mem_map.mp hw
        exact hall stream hmem)
      refine .given (.of_eq hresize (Accounts.ext ?_ rfl rfl rfl rfl rfl))
      rw [windows_eq, windows_eq, List.map_map, List.map_map]
      rfl
  · exact .given h

theorem applySettings_flow (payload : List UInt8) (h : Flow session.core) : Applied (session.applySettings payload) := by
  fun_induction applySettings session payload with
  | case1 session _ _ _ _ _ _ _ hnone =>
    obtain ⟨overflows, session', hsome, -⟩ := applySetting_flow h _ _
    exact absurd (hsome.symm.trans hnone) (Option.some_ne_none _)
  | case2 session _ _ _ _ _ _ _ session' hover =>
    obtain ⟨overflows, session'', hsome, -, hfatal⟩ := applySetting_flow h _ _
    obtain ⟨rfl, rfl⟩ := Prod.mk.inj (Option.some.inj (hsome.symm.trans hover))
    exact ⟨true, _, rfl, fun h => absurd h (by decide), hfatal⟩
  | case3 session _ _ _ _ _ _ _ session' hgiven ih =>
    obtain ⟨overflows, session'', hsome, hflow, -⟩ := applySetting_flow h _ _
    obtain ⟨rfl, rfl⟩ := Prod.mk.inj (Option.some.inj (hsome.symm.trans hgiven))
    exact ih (hflow rfl)
  | case4 => exact .given h

theorem dispatchSettings_flow (h : Flow session.core) (frame : Frame) : Keeps Flow (session.dispatchSettings frame) := by
  unfold dispatchSettings
  split
  · exact ⟨_, rfl, holds_fail session _⟩
  split
  · split
    · exact ⟨_, rfl, holds_fail session _⟩
    · exact ⟨session, rfl, fun _ => h⟩
  split
  · exact ⟨_, rfl, holds_fail session _⟩
  obtain ⟨overflows, session', hsettings, hflow, hfatal⟩ := applySettings_flow frame.payload h
  rw [hsettings]
  cases overflows with
  | true => exact ⟨session', rfl, fun hnone => absurd hnone (hfatal rfl)⟩
  | false =>
    dsimp only
    split
    · exact ⟨_, rfl, holds_fail session' _⟩
    · exact ⟨_, rfl, fun _ => hflow rfl⟩

/-! ### Runs -/

theorem dispatchFrame_flow (lshpack : Lshpack δ) (h : Flow session.core) (frame : Frame) :
    Keeps Flow (session.dispatchFrame lshpack frame) := by
  have hquiet : ∀ {session' : Session δ}, session'.core = session.core → Keeps Flow (some session') :=
    fun hcore => ⟨_, rfl, fun _ => hcore ▸ h⟩
  have hids := flow_stable.nodup h
  unfold dispatchFrame
  split
  · exact ⟨_, rfl, holds_fail session _⟩
  split
  · exact ⟨_, rfl, holds_fail session _⟩
  cases frame.type with
  | settings => exact dispatchSettings_flow h frame
  | windowUpdate => exact dispatchWindowUpdate_flow h frame
  | ping => exact hquiet (core_dispatchPing frame)
  | priority => exact hquiet (core_dispatchPriority frame)
  | headers => exact ⟨_, rfl, dispatchHeaders_flow lshpack h frame⟩
  | continuation => exact ⟨_, rfl, dispatchContinuation_flow lshpack h frame⟩
  | data => exact hquiet (core_dispatchData hids frame)
  | rstStream => exact hquiet (core_dispatchRstStream hids frame)
  | goaway => exact hquiet (core_dispatchGoaway frame)
  | pushPromise => exact ⟨_, rfl, holds_fail session _⟩
  | altsvc | origin | other => exact ⟨session, rfl, fun _ => h⟩

theorem parseFrames_flow (lshpack : Lshpack δ) (fuel : Nat) (buf : List UInt8) (h : Flow session.core) :
    ∃ session' rest, parseFrames lshpack fuel session buf = some (session', rest) ∧ session'.Holds Flow := by
  induction fuel generalizing session buf with
  | zero => exact ⟨session, buf, rfl, fun _ => h⟩
  | succ fuel ih =>
    unfold parseFrames
    split
    · exact ⟨session, buf, rfl, fun _ => h⟩
    · exact ⟨_, buf, rfl, holds_fail session _⟩
    · rename_i frame rest _
      obtain ⟨session', hdispatch, h'⟩ := dispatchFrame_flow lshpack h frame
      rw [hdispatch]
      dsimp only
      split
      · exact ⟨session', rest, rfl, h'⟩
      · rename_i hfatal
        exact ih rest (h' (by simpa using hfatal))

theorem receive_flow (lshpack : Lshpack δ) (incoming : List UInt8) (h : Flow session.core) :
    Keeps Flow (session.receive lshpack incoming) := by
  obtain ⟨session', rest, hparse, h'⟩ :=
    parseFrames_flow lshpack (session.readBuffer ++ incoming).length (session.readBuffer ++ incoming) h
  rw [receive, hparse]
  exact ⟨_, rfl, h'⟩

theorem flow_create (hpack : δ) (socket : List (Option Nat)) : Flow (create hpack socket).core where
  nodup := List.nodup_nil
  next_pos := Nat.zero_lt_one
  ids := List.forall_mem_nil _
  credited := List.forall_mem_nil _
  framed := List.forall_mem_nil _
  initial := (by decide : defaultWindowSize ≤ maxWindowSize)
  conn := rfl
  conn_nonneg := (by decide : (0 : Int) ≤ defaultWindowSize)
  conn_le := (by decide : (defaultWindowSize : Int) ≤ maxWindowSize)
  windows := List.forall_mem_nil _
  sound := List.forall_mem_nil _

/-- In every run, until a fatal error: no conversion to `i32` fails; each stream's window is the peer's initial window
with the increments that were accepted, less the bytes framed on it; so is the connection's window, for all streams;
every window is one; and no frame that is not empty was past a window or past the peer's size of a frame. -/
theorem flow_of_run (lshpack : Lshpack δ) (hpack : δ) (socket : List (Option Nat)) (events : List Event) :
    ∃ session, (create hpack socket).run lshpack events = some session ∧ (session.fatalError = none →
      (∀ stream ∈ session.streams,
        stream.sendWindow = session.remoteInitialWindowSize + balance session.credits stream.id
            - balance (spendings session.framed) stream.id ∧
          -(2 ^ 31 - 1) ≤ stream.sendWindow ∧ stream.sendWindow ≤ 2 ^ 31 - 1) ∧
      session.connSendWindow = 65535 + balance session.credits 0 - size session.framed ∧
      (0 ≤ session.connSendWindow ∧ session.connSendWindow ≤ 2 ^ 31 - 1) ∧
      ∀ frame ∈ session.framed, frame.Fits) := by
  have hreceive : ∀ (bytes incoming : List UInt8) (session : Session δ), session.fatalError = none →
      Flow session.core → Keeps Flow (session.receive lshpack incoming) :=
    fun _ incoming session _ h => receive_flow lshpack incoming h
  obtain ⟨session, hrun, h⟩ := Stable.keeps_run (fun _ => flow_stable) hreceive events []
    (fun _ => flow_create hpack socket)
  refine ⟨session, hrun, fun hfatal => ?_⟩
  have hflow : session.core.accounts.Balanced := h hfatal
  refine ⟨?_, hflow.conn, ⟨hflow.conn_nonneg, hflow.conn_le⟩, fun frame hframe => (hflow.framed frame hframe).2⟩
  intro stream hmem
  have hlevel := hflow.level (mem_windows hmem)
  exact ⟨hflow.windows _ (mem_windows hmem), hlevel.1, hlevel.2⟩

end Session
end Funbun.Http2
