import Funbun.Http2.HpackSync

/-! The HPACK decoder over runs. -/
namespace Funbun.Http2
open Library

variable {δ : Type}

namespace Session
variable {session : Session δ} {stream : Stream}

/-! ### Frames without a header block -/

section Quiet
variable (hids : (session.streams.map (·.id)).Nodup)

variable {overflows : Bool} {session' : Session δ}

theorem sync_shiftWindows {delta : Int} {streams shifted : List Stream}
    (h : shiftWindows delta streams = some (overflows, shifted)) :
    (shifted.map fun stream => (stream.id, stream.headerBlock)) = streams.map fun stream => (stream.id, stream.headerBlock) := by
  induction streams generalizing overflows shifted with
  | nil =>
    cases h
    rfl
  | cons stream streams ih =>
    unfold shiftWindows at h
    dsimp only at h
    split at h
    · cases h
      rfl
    split at h
    · cases h
    · obtain ⟨⟨over', shifted'⟩, hrest, heq⟩ := Option.map_eq_some_iff.mp h
      cases heq
      rw [List.map_cons, List.map_cons, ih hrest]

theorem sync_applySetting {type value : Nat}
    (h : session.applySetting type value = some (overflows, session')) : session'.core.sync = session.core.sync := by
  unfold applySetting at h
  split at h
  · split at h <;> (cases h; rfl)
  · cases h
    rfl
  · cases h
    rfl
  · split at h
    · cases h
      rfl
    · dsimp only at h
      split at h
      · cases h
      · rename_i shifted hshift
        have hsync : ({session with remoteInitialWindowSize := value, streams := shifted} : Session δ).core.sync =
            session.core.sync := by
          refine Sync.ext ?_ rfl rfl rfl rfl
          rw [blocks_eq, blocks_eq]
          exact sync_shiftWindows hshift
        split at h <;> (cases h; exact hsync)
  · cases h
    rfl

theorem sync_applySettings {payload : List UInt8}
    (h : session.applySettings payload = some (overflows, session')) : session'.core.sync = session.core.sync := by
  fun_induction applySettings session payload with
  | case1 => cases h
  | case2 session _ _ _ _ _ _ _ session'' hsetting =>
    cases h
    exact sync_applySetting hsetting
  | case3 session _ _ _ _ _ _ _ session'' hsetting ih => exact (ih h).trans (sync_applySetting hsetting)
  | case4 =>
    cases h
    rfl

theorem sync_dispatchSettings {frame : Frame} (h : session.dispatchSettings frame = some session') :
    session'.core.sync = session.core.sync := by
  unfold dispatchSettings at h
  split at h
  · cases h
    rfl
  split at h
  · split at h <;> (cases h; rfl)
  split at h
  · cases h
    rfl
  split at h
  · cases h
  · rename_i hsettings
    cases h
    exact sync_applySettings hsettings
  · rename_i hsettings
    have hsync := sync_applySettings hsettings
    split at h <;> (cases h; exact hsync)

include hids

theorem sync_dispatchWindowUpdate {frame : Frame}
    (h : session.dispatchWindowUpdate frame = some session') : session'.core.sync = session.core.sync := by
  unfold dispatchWindowUpdate at h
  split at h
  · cases h
    rfl
  split at h
  · cases h
  split at h
  · split at h
    · cases h
      rfl
    dsimp only at h
    split at h
    · cases h
      rfl
    · obtain ⟨next, -, rfl⟩ := Option.map_eq_some_iff.mp h
      rfl
  split at h
  · rename_i stream hfind
    have hmem := (mem_of_find hfind).1
    split at h
    · cases h
      exact congrArg Core.sync (core_reset hids hmem _ _)
    dsimp only at h
    split at h
    · cases h
      exact congrArg Core.sync (core_reset hids hmem _ _)
    · obtain ⟨next, -, rfl⟩ := Option.map_eq_some_iff.mp h
      exact sync_put hids hmem rfl rfl
  · split at h <;> (cases h; rfl)

end Quiet

/-! ### Header blocks -/

/-- The decoder is fed the whole block, or there is a fatal error. -/
theorem decodeHeaderBlock_sync (lshpack : Lshpack δ)
    (hok : ((session.decodeHeaderBlock lshpack stream).1.put (session.decodeHeaderBlock lshpack stream).2).fatalError = none) :
    ((session.decodeHeaderBlock lshpack stream).1.put (session.decodeHeaderBlock lshpack stream).2).core.sync =
      {(session.put {stream with headerBlock := []}).core.sync with fed := session.fed ++ [stream.headerBlock]} := by
  have htaken := decodeLoop_taken lshpack stream.statusCode stream.headerBlock.length
    ⟨session.hpack, [], 0, false, false, false, stream.decodedBytes, []⟩ stream.headerBlock (Nat.le_refl _)
  unfold decodeHeaderBlock at hok ⊢
  dsimp only at hok ⊢
  generalize decodeLoop lshpack stream.statusCode _ _ stream.headerBlock = decoded at *
  obtain ⟨err, fields⟩ := decoded
  cases err with
  | some err => exact absurd hok (Option.some_ne_none err)
  | none =>
    have htaken : fields.taken = stream.headerBlock := htaken rfl
    dsimp only
    generalize hfed : ({session with hpack := fields.hpack, fed := session.fed ++ [fields.taken]} : Session δ) = fed
    generalize hcleared : ({stream with decodedBytes := fields.decodedBytes, headerBlock := []} : Stream) = cleared
    have happly : ∃ frames, Sent fed cleared (fed.applyHeaderBlock cleared stream.decodedBytes.length fields).1
        (fed.applyHeaderBlock cleared stream.decodedBytes.length fields).2 frames := applyHeaderBlock_sent _ fields
    generalize fed.applyHeaderBlock cleared stream.decodedBytes.length fields = applied at *
    obtain ⟨frames, hsent⟩ := happly
    have hid' := hsent.id
    have hblock' := hsent.headerBlock
    obtain ⟨bytes, hsession⟩ := hsent.session
    have hsync : (applied.1.put applied.2).core.sync = (fed.put applied.2).core.sync := by
      rw [hsession]
      rfl
    rw [hsync, ← hfed, ← htaken]
    refine Sync.ext ?_ rfl rfl rfl rfl
    rw [blocks_eq]
    show _ = (session.put {stream with headerBlock := []}).core.sync.blocks
    rw [blocks_eq]
    show (session.streams.map _).map _ = (session.streams.map _).map _
    rw [List.map_map, List.map_map]
    refine List.map_congr_left fun other _ => ?_
    simp only [Function.comp]
    rw [hid', ← hcleared]
    split
    · rw [hid', hblock', ← hcleared]
    · rfl

/-- The session's block is fed, or there is a fatal error. -/
theorem decodeDiscardOrphan_sync (lshpack : Lshpack δ) (hok : (session.decodeDiscardOrphan lshpack).fatalError = none) :
    (session.decodeDiscardOrphan lshpack).core.sync =
      {session.core.sync with orphanHeaderBlock := [], fed := session.fed ++ [session.orphanHeaderBlock]} := by
  have htaken := discardLoop_taken lshpack session.orphanHeaderBlock.length session.hpack [] session.orphanHeaderBlock
    (Nat.le_refl _)
  unfold decodeDiscardOrphan at hok ⊢
  generalize discardLoop lshpack _ _ _ session.orphanHeaderBlock = decoded at *
  obtain ⟨err, hpack, taken⟩ := decoded
  cases err with
  | some err => exact absurd hok (Option.some_ne_none err)
  | none =>
    have htaken : taken = session.orphanHeaderBlock := htaken rfl
    rw [htaken]
    rfl

theorem blocks_put {id : Nat} {block : List UInt8}
    (h : (id, block) ∈ (session.put stream).core.sync.blocks) (hid : id = stream.id) : block = stream.headerBlock := by
  rw [blocks_eq] at h
  obtain ⟨other, hother, heq⟩ := List.mem_map.mp h
  obtain ⟨rfl, rfl⟩ := Prod.mk.inj heq
  rcases mem_put hother with rfl | ⟨-, hne⟩
  · rfl
  · exact absurd hid hne

/-- A stream that is put keeps its fragment. -/
theorem keeps_put {sync : Sync} {old changed : Stream} {id : Nat} {block : List UInt8} (hmem : old ∈ session.streams)
    (hold : old.id = id) (hid : changed.id = id) (hblock : changed.headerBlock = block)
    (hblocks : sync.blocks = (session.put changed).core.sync.blocks) (hexpecting : sync.expectingContinuation = id)
    (hpos : 0 < id) (hlt : id < sync.nextStreamId) : sync.Keeps id block where
  expecting := hexpecting
  pos := hpos
  lt_next := hlt
  stream := by
    rintro ⟨id, block⟩ hkept heq
    rw [← hblock]
    exact blocks_put (hblocks ▸ hkept) (heq.trans hid.symm)
  orphan := by
    intro hnone
    have hself : (changed.id, changed.headerBlock) ∈ sync.blocks :=
      hblocks ▸ mem_blocks (Stable.mem_put_self hmem (hid.trans hold.symm))
    exact absurd hid (hnone _ hself)

/-- No stream keeps a fragment of an id that none has. -/
theorem not_kept {id : Nat} (hfind : session.find id = none) : ∀ kept ∈ session.core.sync.blocks, kept.1 ≠ id := by
  intro kept hkept
  rw [blocks_eq] at hkept
  obtain ⟨other, hother, rfl⟩ := List.mem_map.mp hkept
  exact find_none.mp hfind other hother

section HeaderFrames
variable {blocks : Blocks} (h : session.core.sync.Synced blocks)
include h

theorem dispatchHeaders_sync (lshpack : Lshpack δ) (hpos : ∀ stream ∈ session.streams, 0 < stream.id ∧ stream.id < session.nextStreamId)
    (hclosed : session.expectingContinuation = 0) {frame : Frame} (htype : frame.type = .headers)
    (hok : (session.dispatchHeaders lshpack frame).fatalError = none) :
    (session.dispatchHeaders lshpack frame).core.sync.Synced (blocks.add frame) := by
  have hopened := h.opened_eq_none hclosed
  have hfed : session.fed = blocks.complete := h.fed
  unfold dispatchHeaders at hok ⊢
  cases hfind : session.find frame.streamId with
  | none =>
    rw [hfind] at hok
    dsimp only at hok ⊢
    split at hok
    · exact absurd hok (Option.some_ne_none _)
    rename_i hidle
    rw [if_neg hidle]
    cases hfragment : headersFragment frame.flags frame.payload with
    | none =>
      rw [hfragment] at hok
      exact absurd hok (Option.some_ne_none _)
    | some fragment =>
      rw [hfragment] at hok
      rw [Blocks.add_headers htype hopened hfragment]
      dsimp only at hok ⊢
      split at hok
      · exact absurd hok (Option.some_ne_none _)
      rename_i hlength
      rw [if_neg hlength]
      split at hok
      · rename_i hend
        rw [if_pos hend, if_pos hend, decodeDiscardOrphan_sync lshpack hok]
        exact .of_closed (congrArg (· ++ [fragment]) hfed) hclosed
      · rename_i hend
        rw [if_neg hend, if_neg hend]
        have hidle' : ¬(frame.streamId = 0 ∨ frame.streamId % 2 = 0 ∨ frame.streamId ≥ session.nextStreamId) := by
          simpa [idle] using hidle
        refine .of_opened hfed ⟨rfl, by omega, ?_, ?_, fun _ => rfl⟩
        · show frame.streamId < session.nextStreamId
          omega
        · exact fun kept hkept hid => absurd hid (not_kept hfind kept hkept)
  | some stream =>
    obtain ⟨hmem, hid⟩ := mem_of_find hfind
    rw [hfind] at hok
    dsimp only at hok ⊢
    cases hfragment : headersFragment frame.flags frame.payload with
    | none =>
      rw [hfragment] at hok
      exact absurd hok (Option.some_ne_none _)
    | some fragment =>
      rw [hfragment] at hok
      rw [Blocks.add_headers htype hopened hfragment]
      dsimp only at hok ⊢
      split at hok
      · exact absurd hok (Option.some_ne_none _)
      rename_i hlength
      rw [if_neg hlength]
      split at hok
      · rename_i hend
        rw [if_pos hend, if_pos hend, decodeHeaderBlock_sync lshpack hok]
        refine .of_closed ?_ hclosed
        show session.fed ++ [Stream.headerBlock (if _ then _ else _)] = _
        rw [hfed]
        split <;> rfl
      · rename_i hend
        rw [if_neg hend, if_neg hend, ← hid]
        obtain ⟨hpos, hlt⟩ := hpos stream hmem
        generalize hchanged : ({stream with
          headerBlock := fragment
          headersEndStream := has frame.flags Flags.endStream} : Stream) = changed
        have hid' : changed.id = stream.id := hchanged ▸ rfl
        have hblock : changed.headerBlock = fragment := hchanged ▸ rfl
        exact .of_opened hfed (keeps_put hmem rfl hid' hblock rfl rfl hpos hlt)

theorem dispatchContinuation_sync (lshpack : Lshpack δ) {frame : Frame} (htype : frame.type = .continuation)
    (hok : (session.dispatchContinuation lshpack frame).fatalError = none) :
    (session.dispatchContinuation lshpack frame).core.sync.Synced (blocks.add frame) := by
  have hfed : session.fed = blocks.complete := h.fed
  unfold dispatchContinuation at hok ⊢
  split at hok
  · exact absurd hok (Option.some_ne_none _)
  rename_i hexpecting
  rw [if_neg hexpecting]
  obtain ⟨block, hopened, hkeeps⟩ := h.exists_opened fun hzero => hexpecting (.inl hzero)
  rw [Blocks.add_continuation htype hopened]
  cases hfind : session.find session.expectingContinuation with
  | some stream =>
    obtain ⟨hmem, hid⟩ := mem_of_find hfind
    have hblock : stream.headerBlock = block := hkeeps.stream _ (mem_blocks hmem) hid
    rw [hfind] at hok
    dsimp only at hok ⊢
    split at hok
    · exact absurd hok (Option.some_ne_none _)
    rename_i hlength
    rw [if_neg hlength]
    split at hok
    · rename_i hend
      rw [if_pos hend, if_pos hend, decodeHeaderBlock_sync lshpack hok]
      refine .of_closed ?_ rfl
      show session.fed ++ [Stream.headerBlock (if _ then _ else _)] = _
      rw [hfed, ← hblock]
      split <;> rfl
    · rename_i hend
      rw [if_neg hend, if_neg hend]
      have hexpecting' : session.core.sync.expectingContinuation = stream.id := hid.symm
      rw [hexpecting', ← hblock]
      rw [hexpecting'] at hkeeps
      generalize hchanged : ({stream with headerBlock := stream.headerBlock ++ frame.payload} : Stream) = changed
      have hid' : changed.id = stream.id := hchanged ▸ rfl
      have hblock' : changed.headerBlock = stream.headerBlock ++ frame.payload := hchanged ▸ rfl
      exact .of_opened hfed (keeps_put hmem rfl hid' hblock' rfl hexpecting' hkeeps.pos hkeeps.lt_next)
  | none =>
    have horphan : session.orphanHeaderBlock = block := hkeeps.orphan (not_kept hfind)
    rw [hfind] at hok
    dsimp only at hok ⊢
    split at hok
    · exact absurd hok (Option.some_ne_none _)
    rename_i hlength
    rw [if_neg hlength]
    split at hok
    · rename_i hend
      rw [if_pos hend, if_pos hend, decodeDiscardOrphan_sync lshpack hok]
      refine .of_closed ?_ rfl
      show session.fed ++ [session.orphanHeaderBlock ++ frame.payload] = _
      rw [hfed, horphan]
    · rename_i hend
      rw [if_neg hend, if_neg hend]
      refine .of_opened hfed ⟨rfl, hkeeps.pos, hkeeps.lt_next, ?_, fun _ => congrArg (· ++ frame.payload) horphan⟩
      exact fun kept hkept hid => absurd hid (not_kept hfind kept hkept)

end HeaderFrames

/-! ### Runs -/

/-- A frame adds to the blocks what it adds to those of the server. -/
theorem dispatchFrame_sync {blocks : Blocks} (lshpack : Lshpack δ) (hflow : Flow session.core)
    (h : session.core.sync.Synced blocks) {frame : Frame} {session' : Session δ}
    (hdispatch : session.dispatchFrame lshpack frame = some session') (hok : session'.fatalError = none) :
    session'.core.sync.Synced (blocks.add frame) := by
  have hids := flow_stable.nodup hflow
  unfold dispatchFrame at hdispatch
  split at hdispatch
  · cases hdispatch
    exact absurd hok (Option.some_ne_none _)
  rename_i hexpecting
  split at hdispatch
  · cases hdispatch
    exact absurd hok (Option.some_ne_none _)
  have hquiet : session'.core.sync = session.core.sync → frame.type ≠ .headers ∧ frame.type ≠ .continuation →
      session'.core.sync.Synced (blocks.add frame) := by
    intro hsync hne
    rw [hsync, Blocks.add_other hne.1 hne.2]
    exact h
  have hsame : ∀ {result : Session δ}, result.core = session.core → some result = some session' →
      session'.core.sync = session.core.sync := by
    rintro result hcore ⟨⟩
    exact congrArg Core.sync hcore
  generalize htype : frame.type = type at hdispatch
  cases type with
  | settings => exact hquiet (sync_dispatchSettings hdispatch) (by simp [htype])
  | windowUpdate => exact hquiet (sync_dispatchWindowUpdate hids hdispatch) (by simp [htype])
  | ping => exact hquiet (hsame (core_dispatchPing frame) hdispatch) (by simp [htype])
  | priority => exact hquiet (hsame (core_dispatchPriority frame) hdispatch) (by simp [htype])
  | headers =>
    cases hdispatch
    have hpos : ∀ stream ∈ session.streams, 0 < stream.id ∧ stream.id < session.nextStreamId :=
      fun stream hmem => Accounts.Balanced.ids hflow _ (mem_windows hmem)
    have hclosed : session.expectingContinuation = 0 := by
      by_contra hne
      exact hexpecting ⟨hne, by simp [htype]⟩
    exact dispatchHeaders_sync h lshpack hpos hclosed htype hok
  | continuation =>
    cases hdispatch
    exact dispatchContinuation_sync h lshpack htype hok
  | data => exact hquiet (hsame (core_dispatchData hids frame) hdispatch) (by simp [htype])
  | rstStream => exact hquiet (hsame (core_dispatchRstStream hids frame) hdispatch) (by simp [htype])
  | goaway => exact hquiet (hsame (core_dispatchGoaway frame) hdispatch) (by simp [htype])
  | pushPromise =>
    cases hdispatch
    exact absurd hok (Option.some_ne_none _)
  | altsvc | origin | other => exact hquiet (hsame rfl hdispatch) (by simp [htype])

/-- The loop takes every frame that is complete, or there is a fatal error. -/
theorem parseFrames_fed (lshpack : Lshpack δ) (fuel : Nat) (buf : List UInt8) (sent : List Frame)
    (hfuel : buf.length ≤ fuel) (hflow : Flow session.core) (h : session.core.sync.Synced (headerBlocks sent))
    (htold : session.core.peer.Told sent) :
    ∃ session' rest, parseFrames lshpack fuel session buf = some (session', rest) ∧ (session'.fatalError = none →
      Flow session'.core ∧ session'.core.sync.Synced (headerBlocks (sent ++ frames buf)) ∧
        session'.core.peer.Told (sent ++ frames buf) ∧ rest = leftover buf) := by
  have hstop : ∀ {session : Session δ} {buf : List UInt8} {sent : List Frame}, frontFrame buf = none →
      session.core.sync.Synced (headerBlocks sent) → session.core.peer.Told sent →
      session.core.sync.Synced (headerBlocks (sent ++ frames buf)) ∧ session.core.peer.Told (sent ++ frames buf) ∧
        buf = leftover buf := by
    intro session buf sent hfront h htold
    rw [frames, leftover, Front.split_none hfront, List.append_nil]
    exact ⟨h, htold, rfl⟩
  induction fuel generalizing session buf sent with
  | zero =>
    obtain rfl := List.eq_nil_of_length_eq_zero (Nat.le_zero.mp hfuel)
    exact ⟨session, [], rfl, fun _ => ⟨hflow, hstop rfl h htold⟩⟩
  | succ fuel ih =>
    unfold parseFrames
    cases hparse : parseFrame buf with
    | incomplete =>
      have hfront : frontFrame buf = none := by
        unfold frontFrame
        rw [hparse]
      exact ⟨session, buf, rfl, fun _ => ⟨hflow, hstop hfront h htold⟩⟩
    | tooLong => exact ⟨_, buf, rfl, fun hok => absurd hok (Option.some_ne_none _)⟩
    | frame frame rest =>
      obtain ⟨session', hdispatch, hflow'⟩ := dispatchFrame_flow lshpack hflow frame
      dsimp only
      rw [hdispatch]
      dsimp only
      split
      · rename_i hfatal
        refine ⟨session', rest, rfl, fun hok => ?_⟩
        rw [hok] at hfatal
        exact absurd hfatal (by decide)
      · rename_i hfatal
        have hok : session'.fatalError = none := by simpa using hfatal
        have hlt := length_parseFrame hparse
        have h' := dispatchFrame_sync lshpack hflow h hdispatch hok
        rw [← headerBlocks_concat] at h'
        obtain ⟨_, hsame, htold'⟩ := dispatchFrame_told htold lshpack hflow frame
        obtain rfl := Option.some.inj (hdispatch.symm.trans hsame)
        obtain ⟨session'', left, hrest, hfed⟩ := ih rest (sent ++ [frame]) (by omega) (hflow' hok) h' (htold' hok)
        refine ⟨session'', left, hrest, fun hok' => ?_⟩
        have hsplit := front_frontFrame.split_some (frontFrame_eq_some.mpr hparse)
        have hfed := hfed hok'
        rw [List.append_assoc] at hfed
        rw [leftover, frames, hsplit]
        exact hfed

theorem receive_fed (lshpack : Lshpack δ) {bytes : List UInt8} (incoming : List UInt8) (h : Fed bytes session.core) :
    Keeps (Fed (bytes ++ incoming)) (session.receive lshpack incoming) := by
  have hbuffer : session.readBuffer = leftover bytes := h.readBuffer
  obtain ⟨session', rest, hparse, hfed⟩ := parseFrames_fed lshpack (session.readBuffer ++ incoming).length
    (session.readBuffer ++ incoming) (frames bytes) (Nat.le_refl _) h.flow h.synced h.told
  rw [receive, hparse]
  refine ⟨_, rfl, fun hok => ?_⟩
  obtain ⟨hflow, hsynced, htold, hrest⟩ := hfed hok
  rw [hbuffer, ← frames_append] at hsynced htold
  refine ⟨hflow, ?_, hsynced, htold⟩
  have hok' : session'.fatalError = none := hok
  show (if session.readBuffer = [] ∧ session'.fatalError.isSome = true then session.readBuffer else rest) = _
  rw [hok', if_neg fun hfatal => absurd hfatal.2 (by decide), hrest, hbuffer, ← leftover_append]

theorem fed_create (hpack : δ) (socket : List (Option Nat)) : Fed [] (create hpack socket).core where
  flow := flow_create hpack socket
  readBuffer := rfl
  synced := .of_closed rfl rfl
  told := .nil

theorem fed_run (lshpack : Lshpack δ) (hpack : δ) (socket : List (Option Nat)) (events : List Event) :
    Keeps (Fed (received events)) ((create hpack socket).run lshpack events) :=
  Stable.keeps_run (fun bytes => fed_stable bytes) (fun _ incoming _ _ h => receive_fed lshpack incoming h) events []
    fun _ => fed_create hpack socket

/-- In every run, until a fatal error: what the decoder was fed are the header blocks of the frames that came in, in
their order, each once and to its end. -/
theorem fed_of_run (lshpack : Lshpack δ) (hpack : δ) (socket : List (Option Nat)) (events : List Event) :
    ∃ session, (create hpack socket).run lshpack events = some session ∧
      (session.fatalError = none → session.fed = (headerBlocks (frames (received events))).complete) := by
  obtain ⟨session, hrun, h⟩ := fed_run lshpack hpack socket events
  exact ⟨session, hrun, fun hok => (h hok).synced.fed⟩

/-- In every run, until a fatal error: the peer's windows and sizes are those of the frames that came in, and so are its
credits. -/
theorem told_of_run (lshpack : Lshpack δ) (hpack : δ) (socket : List (Option Nat)) (events : List Event) :
    Keeps (fun core => core.peer.Told (frames (received events))) ((create hpack socket).run lshpack events) := by
  obtain ⟨session, hrun, h⟩ := fed_run lshpack hpack socket events
  exact ⟨session, hrun, fun hok => (h hok).told⟩

end Session
end Funbun.Http2
