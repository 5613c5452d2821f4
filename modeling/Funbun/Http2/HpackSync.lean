import Funbun.Http2.Peer
import Funbun.Http2.HeaderBlocks

/-! The HPACK decoder is fed the header blocks of the server.

A block that is not complete is kept by its stream, or by the session where there is no such stream. The stream may go
at any time, and leaves the block to the session. -/
namespace Funbun.Http2
open Library

variable {δ : Type}

/-! ### What the decoder takes -/

theorem decode_next {lshpack : Lshpack δ} {hpack : δ} {src : List UInt8} {result : DecodeResult δ}
    (h : lshpack.decode hpack src = some result) : 0 < result.next := by
  unfold Lshpack.decode at h
  split at h
  split at h
  · cases h
  · rename_i hoffset
    split at h
    · cases h
    · obtain rfl := Option.some.inj h
      exact Nat.pos_of_ne_zero hoffset

/-- A field changes nothing of what was taken. -/
theorem field_taken {statusCode : Nat} {fields fields' : Fields δ} {name value : List UInt8}
    (h : fields.field statusCode name value = some fields') : fields'.taken = fields.taken := by
  unfold Fields.field at h
  split at h
  · split at h
    · exact Option.some.inj h ▸ rfl
    · exact Option.some.inj h ▸ rfl
  · dsimp only at h
    split at h
    · exact Option.some.inj h ▸ rfl
    split at h
    · exact Option.some.inj h ▸ rfl
    split at h
    · cases h
    · exact Option.some.inj h ▸ rfl

/-- A loop without an error takes the block to its end. -/
theorem decodeLoop_taken (lshpack : Lshpack δ) (statusCode fuel : Nat) (fields : Fields δ) (block : List UInt8)
    (hfuel : block.length ≤ fuel) (hok : (decodeLoop lshpack statusCode fuel fields block).1 = none) :
    (decodeLoop lshpack statusCode fuel fields block).2.taken = fields.taken ++ block := by
  induction fuel generalizing fields block with
  | zero =>
    obtain rfl := List.eq_nil_of_length_eq_zero (Nat.le_zero.mp hfuel)
    rw [decodeLoop, List.append_nil]
  | succ fuel ih =>
    cases block with
    | nil => rw [decodeLoop, List.append_nil]
    | cons byte bytes =>
      unfold decodeLoop at hok ⊢
      cases hdecode : lshpack.decode fields.hpack (byte :: bytes) with
      | none =>
        rw [hdecode] at hok
        cases hok
      | some result =>
        rw [hdecode] at hok
        dsimp only at hok ⊢
        have hnext := decode_next hdecode
        split at hok
        · cases hok
        · rename_i fields' hfield
          have hlength : ((byte :: bytes).drop result.next).length ≤ fuel := by
            rw [List.length_drop]
            omega
          rw [ih fields' _ hlength hok, field_taken hfield, List.append_assoc, List.take_append_drop]

theorem discardLoop_taken (lshpack : Lshpack δ) (fuel : Nat) (hpack : δ) (taken block : List UInt8)
    (hfuel : block.length ≤ fuel) (hok : (discardLoop lshpack fuel hpack taken block).1 = none) :
    (discardLoop lshpack fuel hpack taken block).2.2 = taken ++ block := by
  induction fuel generalizing hpack taken block with
  | zero =>
    obtain rfl := List.eq_nil_of_length_eq_zero (Nat.le_zero.mp hfuel)
    rw [discardLoop, List.append_nil]
  | succ fuel ih =>
    cases block with
    | nil => rw [discardLoop, List.append_nil]
    | cons byte bytes =>
      unfold discardLoop at hok ⊢
      cases hdecode : lshpack.decode hpack (byte :: bytes) with
      | none =>
        rw [hdecode] at hok
        cases hok
      | some result =>
        rw [hdecode] at hok
        have hnext := decode_next hdecode
        have hlength : ((byte :: bytes).drop result.next).length ≤ fuel := by
          rw [List.length_drop, List.length_cons]
          rw [List.length_cons] at hfuel
          omega
        rw [ih _ _ _ hlength hok, List.append_assoc, List.take_append_drop]

/-! ### The invariant -/

/-- What of a core the header blocks depend on. -/
@[ext] structure Sync where
  blocks : List (Nat × List UInt8)
  nextStreamId : Nat
  expectingContinuation : Nat
  orphanHeaderBlock : List UInt8
  fed : List (List UInt8)

def Core.sync (core : Core) : Sync where
  blocks := core.streams.map fun stream => (stream.id, stream.headerBlock)
  nextStreamId := core.nextStreamId
  expectingContinuation := core.expectingContinuation
  orphanHeaderBlock := core.orphanHeaderBlock
  fed := core.fed

/-- The block that is opened is kept by its stream, or else by the session. -/
structure Sync.Keeps (sync : Sync) (id : Nat) (block : List UInt8) : Prop where
  expecting : sync.expectingContinuation = id
  pos : 0 < id
  lt_next : id < sync.nextStreamId
  stream : ∀ kept ∈ sync.blocks, kept.1 = id → kept.2 = block
  orphan : (∀ kept ∈ sync.blocks, kept.1 ≠ id) → sync.orphanHeaderBlock = block

/-- The decoder was fed the blocks that are complete, and the other one is kept. -/
structure Sync.Synced (sync : Sync) (blocks : Blocks) : Prop where
  fed : sync.fed = blocks.complete
  closed : blocks.opened = none → sync.expectingContinuation = 0
  opened : ∀ id block, blocks.opened = some (id, block) → sync.Keeps id block

namespace Sync.Synced
variable {sync : Sync} {blocks : Blocks}

variable {complete : List (List UInt8)} {kept : List (Nat × List UInt8)}

theorem of_closed (hfed : sync.fed = complete) (hclosed : sync.expectingContinuation = 0) :
    sync.Synced ⟨complete, none⟩ where
  fed := hfed
  closed := fun _ => hclosed
  opened := fun _ _ hopened => absurd hopened.symm (Option.some_ne_none _)

theorem of_opened {id : Nat} {block : List UInt8} (hfed : sync.fed = complete)
    (hkeeps : sync.Keeps id block) : sync.Synced ⟨complete, some (id, block)⟩ where
  fed := hfed
  closed := fun hopened => absurd hopened (Option.some_ne_none _)
  opened := by
    rintro _ _ ⟨⟩
    exact hkeeps

/-- No block is open where no CONTINUATION is expected. -/
theorem opened_eq_none (h : sync.Synced blocks) (hclosed : sync.expectingContinuation = 0) : blocks.opened = none := by
  cases hopened : blocks.opened with
  | none => rfl
  | some opened =>
    have hkeeps := h.opened opened.1 opened.2 hopened
    have hpos := hkeeps.pos
    rw [← hkeeps.expecting, hclosed] at hpos
    exact absurd hpos (Nat.lt_irrefl 0)

theorem exists_opened (h : sync.Synced blocks) (hexpecting : sync.expectingContinuation ≠ 0) :
    ∃ block, blocks.opened = some (sync.expectingContinuation, block) ∧ sync.Keeps sync.expectingContinuation block := by
  cases hopened : blocks.opened with
  | none => exact absurd (h.closed hopened) hexpecting
  | some opened =>
    have hkeeps := h.opened opened.1 opened.2 hopened
    rw [hkeeps.expecting]
    exact ⟨opened.2, rfl, hkeeps⟩

/-- Streams come and go, but for the one that keeps the block. -/
theorem streams (h : sync.Synced blocks) {next : Nat} (hnext : sync.nextStreamId ≤ next)
    (hstreams : ∀ k ∈ kept, k ∈ sync.blocks ∨ k.1 ≠ sync.expectingContinuation)
    (horphans : ∀ k ∈ sync.blocks, k ∈ kept ∨ k.1 ≠ sync.expectingContinuation) :
    Synced {sync with blocks := kept, nextStreamId := next} blocks where
  fed := h.fed
  closed := h.closed
  opened := by
    intro id block hopened
    have hkeeps := h.opened id block hopened
    rw [hkeeps.expecting] at hstreams horphans
    refine ⟨hkeeps.expecting, hkeeps.pos, Nat.lt_of_lt_of_le hkeeps.lt_next hnext, ?_, ?_⟩
    · intro k hk hid
      rcases hstreams k hk with hk | hne
      · exact hkeeps.stream k hk hid
      · exact absurd hid hne
    · intro hnone
      refine hkeeps.orphan fun k hk hid => ?_
      rcases horphans k hk with hk | hne
      · exact hnone k hk hid
      · exact hne hid

/-- The stream that keeps the block goes. -/
theorem orphaned (h : sync.Synced blocks) {block : List UInt8}
    (hmem : (sync.expectingContinuation, block) ∈ sync.blocks) (hkept : ∀ k ∈ kept, k.1 ≠ sync.expectingContinuation) :
    Synced {sync with blocks := kept, orphanHeaderBlock := block} blocks where
  fed := h.fed
  closed := h.closed
  opened := by
    intro id opened hopened
    have hkeeps := h.opened id opened hopened
    have hid := hkeeps.expecting
    rw [hid] at hmem hkept
    exact ⟨hid, hkeeps.pos, hkeeps.lt_next, fun k hk heq => absurd heq (hkept k hk),
      fun _ => hkeeps.stream _ hmem rfl⟩

end Sync.Synced

namespace Session
variable {session : Session δ} {stream : Stream}

/-- The streams' fragments -/
theorem blocks_eq (session : Session δ) :
    session.core.sync.blocks = session.streams.map fun stream => (stream.id, stream.headerBlock) :=
  List.map_map

theorem mem_blocks (hmem : stream ∈ session.streams) : (stream.id, stream.headerBlock) ∈ session.core.sync.blocks := by
  rw [blocks_eq]
  exact List.mem_map_of_mem (f := fun stream : Stream => (stream.id, stream.headerBlock)) hmem

/-- A stream is put whose fragment is as it was. -/
theorem sync_put (hids : (session.streams.map (·.id)).Nodup) {old : Stream} (hmem : old ∈ session.streams)
    (hid : stream.id = old.id) (hblock : stream.headerBlock = old.headerBlock) :
    (session.put stream).core.sync = session.core.sync := by
  refine Sync.ext ?_ rfl rfl rfl rfl
  rw [blocks_eq, blocks_eq]
  refine map_put _ fun other hother heq => ?_
  rw [List.inj_on_of_nodup_map hids hother hmem (heq.trans hid), hid, hblock]

/-- The frames of the bytes that came in: what is left of them is kept, the windows are balanced, the decoder was fed
the blocks, and the rest is as the peer has told. -/
structure Fed (bytes : List UInt8) (core : Core) : Prop where
  flow : Flow core
  readBuffer : core.readBuffer = leftover bytes
  synced : core.sync.Synced (headerBlocks (frames bytes))
  told : core.peer.Told (frames bytes)

/-- What frames a body changes no fragment. -/
theorem sync_sent {session' : Session δ} {stream' : Stream} {frames : List Framed}
    (hids : (session.streams.map (·.id)).Nodup) (hmem : stream ∈ session.streams)
    (hsent : Sent session stream session' stream' frames) : (session'.put stream').core.sync = session.core.sync := by
  have hid := hsent.id
  have hblock := hsent.headerBlock
  obtain ⟨bytes, rfl⟩ := hsent.session
  exact sync_put hids hmem hid hblock

theorem synced_removed {blocks : Blocks} (hids : (session.streams.map (·.id)).Nodup) {old : Stream}
    (hmem : old ∈ session.streams) (hcore : stream.core = old.core) (h : session.core.sync.Synced blocks) :
    (session.removeStream stream).core.sync.Synced blocks := by
  have hid : stream.id = old.id := congrArg StreamCore.id hcore
  have hblock : stream.headerBlock = old.headerBlock := congrArg StreamCore.headerBlock hcore
  have hothers := (nodup_swapRemove hids hmem).2
  obtain ⟨removed, hremoved, hperm⟩ := swapRemove_perm hmem
  by_cases hexpecting : session.expectingContinuation = stream.id
  · have hsync : (session.removeStream stream).core.sync = {session.core.sync with
        blocks := (session.removeStream stream).core.sync.blocks
        orphanHeaderBlock := old.headerBlock} := by
      refine Sync.ext rfl rfl rfl ?_ rfl
      show (if session.expectingContinuation = stream.id then _ else _) = _
      rw [if_pos hexpecting, hblock]
    rw [hsync]
    refine h.orphaned ?_ ?_
    · show (session.expectingContinuation, old.headerBlock) ∈ _
      rw [hexpecting, hid]
      exact mem_blocks hmem
    · intro kept hkept
      rw [blocks_eq] at hkept
      obtain ⟨other, hother, rfl⟩ := List.mem_map.mp hkept
      show other.id ≠ session.expectingContinuation
      rw [hexpecting, hid]
      exact hothers other (hid ▸ hother)
  · have hsync : (session.removeStream stream).core.sync = {session.core.sync with
        blocks := (session.removeStream stream).core.sync.blocks
        nextStreamId := session.core.sync.nextStreamId} := by
      refine Sync.ext rfl rfl rfl ?_ rfl
      show (if session.expectingContinuation = stream.id then _ else _) = _
      rw [if_neg hexpecting]
      rfl
    rw [hsync]
    refine h.streams (Nat.le_refl _) ?_ ?_
    · intro kept hkept
      rw [blocks_eq] at hkept
      obtain ⟨other, hother, rfl⟩ := List.mem_map.mp hkept
      exact .inl (mem_blocks (mem_of_mem_swapRemove hother))
    · intro kept hkept
      rw [blocks_eq] at hkept
      obtain ⟨other, hother, rfl⟩ := List.mem_map.mp hkept
      rcases List.mem_cons.mp (hperm.mem_iff.mp hother) with rfl | hother
      · right
        show other.id ≠ session.expectingContinuation
        rw [hremoved, ← hid]
        exact fun heq => hexpecting heq.symm
      · left
        rw [blocks_eq]
        show _ ∈ (swapRemove session.streams stream.id).map _
        rw [hid]
        exact List.mem_map_of_mem (f := fun stream : Stream => (stream.id, stream.headerBlock)) hother

theorem fed_stable (bytes : List UInt8) : Stable δ (Fed bytes) where
  nodup h := flow_stable.nodup h.flow
  lt_next h := flow_stable.lt_next h.flow
  levels h := flow_stable.levels h.flow
  initial h := flow_stable.initial h.flow
  sent := by
    intro session session' stream stream' frames h hmem hsent
    have hsynced := h.synced
    rw [← sync_sent (flow_stable.nodup h.flow) hmem hsent] at hsynced
    have hflow := flow_stable.sent h.flow hmem hsent
    obtain ⟨bytes, rfl⟩ := hsent.session
    exact ⟨hflow, h.readBuffer, hsynced, h.told⟩
  opened := by
    intro session client h hnext
    refine ⟨flow_stable.opened client h.flow hnext, h.readBuffer, ?_, h.told⟩
    have hexpecting : session.expectingContinuation ≠ session.nextStreamId := by
      cases hopened : (headerBlocks (frames bytes)).opened with
      | none =>
        have hclosed : session.expectingContinuation = 0 := h.synced.closed hopened
        have hpos : 0 < session.nextStreamId := Accounts.Balanced.next_pos h.flow
        omega
      | some opened =>
        have hkeeps := h.synced.opened opened.1 opened.2 hopened
        have hexpecting : session.expectingContinuation = opened.1 := hkeeps.expecting
        exact hexpecting ▸ Nat.ne_of_lt hkeeps.lt_next
    have hsync : (({session with
        nextStreamId := session.nextStreamId + 2
        streams := session.streams ++ [Stream.new session.nextStreamId client session.remoteInitialWindowSize]} :
          Session δ).core.sync) = {session.core.sync with
        blocks := session.core.sync.blocks ++ [(session.nextStreamId, [])]
        nextStreamId := session.nextStreamId + 2} := by
      refine Sync.ext ?_ rfl rfl rfl rfl
      rw [blocks_eq, blocks_eq, List.map_append]
      rfl
    rw [hsync]
    refine h.synced.streams (Nat.le_add_right session.nextStreamId 2) ?_ ?_
    · intro kept hkept
      rcases List.mem_append.mp hkept with hkept | hkept
      · exact .inl hkept
      · rw [List.mem_singleton.mp hkept]
        exact .inr hexpecting.symm
    · exact fun kept hkept => .inl (List.mem_append_left _ hkept)
  skipped := by
    intro session h hnext
    refine ⟨flow_stable.skipped h.flow hnext, h.readBuffer, ?_, h.told⟩
    exact h.synced.streams (Nat.le_add_right session.nextStreamId 2) (fun _ hk => .inl hk) fun _ hk => .inl hk
  removed := by
    intro session stream old h hmem hcore
    exact ⟨flow_stable.removed h.flow hmem hcore, h.readBuffer,
      synced_removed (flow_stable.nodup h.flow) hmem hcore h.synced, h.told⟩

end Session
end Funbun.Http2
