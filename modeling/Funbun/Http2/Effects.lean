import Funbun.Http2.Entry
import Funbun.Library.Window
import Mathlib.Data.List.Perm.Basic
import Mathlib.Data.List.Nodup

/-! What each operation of a session changes. -/
namespace Funbun.Http2
open Library

variable {δ : Type}

/-! ### Streams -/

namespace Session
variable {session : Session δ} {stream : Stream}

variable {id : Nat} {streams : List Stream}

theorem mem_of_find (h : session.find id = some stream) : stream ∈ session.streams ∧ stream.id = id := by
  have hid := List.find?_some h
  exact ⟨List.mem_of_find?_eq_some h, by simpa using hid⟩

theorem find_none : session.find id = none ↔ ∀ stream ∈ session.streams, stream.id ≠ id := by
  rw [find, List.find?_eq_none]
  simp only [beq_iff_eq]

theorem mem_put {other : Stream} (h : other ∈ (session.put stream).streams) :
    other = stream ∨ other ∈ session.streams ∧ other.id ≠ stream.id := by
  obtain ⟨old, hold, hother⟩ := List.mem_map.mp h
  by_cases hid : old.id = stream.id
  · left
    rw [← hother, if_pos (beq_iff_eq.mpr hid)]
  · right
    rw [if_neg (by simpa using hid)] at hother
    exact hother ▸ ⟨hold, hid⟩

/-- What is the same in a stream that is put back is the same in all. -/
theorem map_put {β : Type} (f : Stream → β) (h : ∀ old ∈ session.streams, old.id = stream.id → f stream = f old) :
    (session.put stream).streams.map f = session.streams.map f := by
  show (session.streams.map _).map f = _
  rw [List.map_map]
  refine List.map_congr_left fun old hold => ?_
  show f (if old.id == stream.id then stream else old) = f old
  by_cases hid : old.id = stream.id
  · rw [if_pos (beq_iff_eq.mpr hid)]
    exact h old hold hid
  · rw [if_neg (by simpa using hid)]

/-- What is at `i` is left out, whatever the order of the others. -/
theorem perm_set_dropLast {α : Type} {l : List α} {last : α} {i : Nat} (h : i < l.length) (hlast : l.getLast? = some last) :
    l.Perm (l[i] :: (l.set i last).dropLast) := by
  obtain ⟨init, rfl⟩ := List.getLast?_eq_some_iff.mp hlast
  obtain hi | rfl : i < init.length ∨ i = init.length := by
    rw [List.length_append, List.length_singleton] at h
    omega
  · rw [List.set_append_left _ _ hi, List.dropLast_concat, List.getElem_append_left hi]
    have hinit : init.Perm (init[i] :: init.eraseIdx i) := (List.getElem_cons_eraseIdx_perm hi).symm
    have hset : (init.set i last).Perm (last :: init.eraseIdx i) := List.set_perm_cons_eraseIdx hi last
    exact ((hinit.append_right [last]).trans ((List.perm_append_singleton last _).cons _)).trans (hset.symm.cons _)
  · simp only [List.getElem_concat_length, List.set_append_right _ _ (Nat.le_refl _), Nat.sub_self, List.set_cons_zero,
      List.dropLast_concat]
    exact List.perm_append_singleton last init

/-- A stream is removed, and the others stay. -/
theorem swapRemove_perm (h : stream ∈ streams) :
    ∃ removed, removed.id = stream.id ∧ streams.Perm (removed :: swapRemove streams stream.id) := by
  unfold swapRemove
  cases hindex : streams.findIdx? fun other => other.id == stream.id with
  | none =>
    rw [List.findIdx?_eq_none_iff] at hindex
    exact absurd (hindex stream h) (by simp)
  | some i =>
    rw [List.findIdx?_eq_some_iff_getElem] at hindex
    obtain ⟨hlt, hget, -⟩ := hindex
    have hne : streams ≠ [] := List.ne_nil_of_length_pos (Nat.zero_lt_of_lt hlt)
    have hlast := List.getLast?_eq_some_getLast hne
    rw [hlast]
    exact ⟨streams[i], by simpa using hget, perm_set_dropLast hlt hlast⟩

theorem mem_of_mem_swapRemove {other : Stream} (h : other ∈ swapRemove streams id) :
    other ∈ streams := by
  by_cases hfound : ∃ stream ∈ streams, stream.id = id
  · obtain ⟨stream, hmem, rfl⟩ := hfound
    obtain ⟨removed, -, hperm⟩ := swapRemove_perm hmem
    exact hperm.mem_iff.mpr (List.mem_cons_of_mem _ h)
  · have hnone : streams.findIdx? (fun stream => stream.id == id) = none := by
      rw [List.findIdx?_eq_none_iff]
      intro stream hmem
      simpa using fun hid => hfound ⟨stream, hmem, hid⟩
    rwa [swapRemove, hnone] at h

theorem nodup_swapRemove (hids : (streams.map (·.id)).Nodup) (hmem : stream ∈ streams) :
    ((swapRemove streams stream.id).map (·.id)).Nodup ∧ ∀ other ∈ swapRemove streams stream.id, other.id ≠ stream.id := by
  obtain ⟨removed, hid, hperm⟩ := swapRemove_perm hmem
  have hcons : ((removed :: swapRemove streams stream.id).map (·.id)).Nodup := (hperm.map (·.id)).nodup_iff.mp hids
  rw [List.map_cons, List.nodup_cons, hid] at hcons
  refine ⟨hcons.2, fun other hother heq => hcons.1 ?_⟩
  rw [← heq]
  exact List.mem_map_of_mem (heq.symm ▸ hother)

end Session

/-! ### DATA frames -/

/-- A frame that is not empty goes past neither window, nor past the peer's size of a frame. -/
def Framed.Fits (frame : Framed) : Prop :=
  frame.payload ≠ [] →
    frame.payload.length ≤ frame.sendWindow ∧ frame.payload.length ≤ frame.connSendWindow ∧
      frame.payload.length ≤ frame.maxFrameSize

/-- The bytes of the frames -/
def size (frames : List Framed) : Int := (frames.map fun frame => (frame.payload.length : Int)).sum

@[simp] theorem size_nil : size [] = 0 := rfl

theorem size_append (frames more : List Framed) : size (frames ++ more) = size frames + size more := by
  simp only [size, List.map_append, List.sum_append]

theorem size_nonneg (frames : List Framed) : 0 ≤ size frames := by
  induction frames with
  | nil => exact Int.le_refl 0
  | cons frame frames ih =>
    have hsplit := size_append [frame] frames
    have hone : size [frame] = frame.payload.length := by simp [size]
    rw [List.singleton_append] at hsplit
    omega

/-- The stream's frames are queued, and both windows pay for them. -/
structure Sent (session : Session δ) (stream : Stream) (session' : Session δ) (stream' : Stream)
    (frames : List Framed) : Prop where
  session : ∃ bytes, session' = {session with
    writeBuffer := session.writeBuffer ++ bytes
    framed := session.framed ++ frames
    connSendWindow := session.connSendWindow - size frames}
  id : stream'.id = stream.id
  headerBlock : stream'.headerBlock = stream.headerBlock
  window : stream'.sendWindow = stream.sendWindow - size frames
  own : ∀ frame ∈ frames, frame.streamId = stream.id
  fits : ∀ frame ∈ frames, frame.Fits
  covered : size frames = 0 ∨ 0 ≤ stream'.sendWindow ∧ 0 ≤ session'.connSendWindow

namespace Sent
variable {session session' session'' : Session δ} {stream stream' stream'' : Stream} {frames more : List Framed}

theorem conn (h : Sent session stream session' stream' frames) :
    session'.connSendWindow = session.connSendWindow - size frames := by
  obtain ⟨bytes, rfl⟩ := h.session
  rfl

/-- What is queued is no DATA. -/
theorem queue (bytes : List UInt8) (hid : stream'.id = stream.id) (hblock : stream'.headerBlock = stream.headerBlock)
    (hwindow : stream'.sendWindow = stream.sendWindow) : Sent session stream (session.queue bytes) stream' [] where
  session := ⟨bytes, by
    simp only [Session.queue, List.append_nil, size_nil, Int.sub_zero]⟩
  id := hid
  headerBlock := hblock
  window := by rw [hwindow, size_nil, Int.sub_zero]
  own := List.forall_mem_nil _
  fits := List.forall_mem_nil _
  covered := .inl rfl

theorem changed (hid : stream'.id = stream.id) (hblock : stream'.headerBlock = stream.headerBlock)
    (hwindow : stream'.sendWindow = stream.sendWindow) : Sent session stream session stream' [] where
  session := ⟨[], by simp only [List.append_nil, size_nil, Int.sub_zero]⟩
  id := hid
  headerBlock := hblock
  window := by rw [hwindow, size_nil, Int.sub_zero]
  own := List.forall_mem_nil _
  fits := List.forall_mem_nil _
  covered := .inl rfl

theorem refl : Sent session stream session stream [] := .changed rfl rfl rfl

/-- The stream is changed, but for what it is known by here. -/
theorem set (h : Sent session stream session' stream' frames) (hid : stream''.id = stream'.id)
    (hblock : stream''.headerBlock = stream'.headerBlock) (hwindow : stream''.sendWindow = stream'.sendWindow) :
    Sent session stream session' stream'' frames where
  session := h.session
  id := hid.trans h.id
  headerBlock := hblock.trans h.headerBlock
  window := hwindow.trans h.window
  own := h.own
  fits := h.fits
  covered := hwindow ▸ h.covered

theorem trans (h : Sent session stream session' stream' frames) (h' : Sent session' stream' session'' stream'' more) :
    Sent session stream session'' stream'' (frames ++ more) where
  session := by
    obtain ⟨bytes, rfl⟩ := h.session
    obtain ⟨bytes', rfl⟩ := h'.session
    refine ⟨bytes ++ bytes', ?_⟩
    simp only [List.append_assoc, size_append, Int.sub_sub]
  id := h'.id.trans h.id
  headerBlock := h'.headerBlock.trans h.headerBlock
  window := by rw [h'.window, h.window, size_append, Int.sub_sub]
  own := by
    intro frame hmem
    rcases List.mem_append.mp hmem with hmem | hmem
    · exact h.own frame hmem
    · exact (h'.own frame hmem).trans h.id
  fits := by
    intro frame hmem
    rcases List.mem_append.mp hmem with hmem | hmem
    · exact h.fits frame hmem
    · exact h'.fits frame hmem
  covered := by
    have hwindow := h'.window
    have hconn := h'.conn
    rw [size_append]
    rcases h'.covered with hmore | hmore
    · rcases h.covered with hframes | hframes
      · left
        omega
      · right
        omega
    · exact .inr hmore

/-- A DATA frame -/
theorem writeData (flags : UInt8) {payload : List UInt8} (hid : stream'.id = stream.id)
    (hblock : stream'.headerBlock = stream.headerBlock)
    (hwindow : stream'.sendWindow = stream.sendWindow - payload.length)
    (hfits : payload ≠ [] → payload.length ≤ stream.sendWindow ∧ payload.length ≤ session.connSendWindow ∧
      payload.length ≤ session.remoteMaxFrameSize) :
    Sent session stream
      {session.writeData stream flags payload with connSendWindow := session.connSendWindow - payload.length} stream'
      [⟨stream.id, flags, payload, stream.sendWindow, session.connSendWindow, session.remoteMaxFrameSize⟩] := by
  have hsize : ∀ frame : Framed, size [frame] = frame.payload.length := fun frame => by simp [size]
  constructor
  · refine ⟨Frame.encode ⟨.data, flags, stream.id, payload⟩, ?_⟩
    rw [hsize]
    rfl
  · exact hid
  · exact hblock
  · rw [hwindow, hsize]
  · exact List.forall_mem_singleton.mpr rfl
  · exact List.forall_mem_singleton.mpr hfits
  · rw [hsize]
    show (payload.length : Int) = 0 ∨ 0 ≤ stream'.sendWindow ∧ 0 ≤ session.connSendWindow - payload.length
    by_cases hnil : payload = []
    · exact .inl (by rw [hnil]; rfl)
    · have hle := hfits hnil
      right
      omega

/-- A DATA frame without bytes -/
theorem writeEnd (flags : UInt8) (hid : stream'.id = stream.id) (hblock : stream'.headerBlock = stream.headerBlock)
    (hwindow : stream'.sendWindow = stream.sendWindow) :
    Sent session stream (session.writeData stream flags []) stream'
      [⟨stream.id, flags, [], stream.sendWindow, session.connSendWindow, session.remoteMaxFrameSize⟩] := by
  have hdata : Sent session stream
      {session.writeData stream flags [] with connSendWindow := session.connSendWindow - ([] : List UInt8).length} stream' _ :=
    .writeData flags hid hblock (hwindow.trans (Int.sub_zero _).symm) fun hne => absurd rfl hne
  have hzero : session.connSendWindow - (([] : List UInt8).length : Int) = session.connSendWindow := Int.sub_zero _
  rw [hzero] at hdata
  exact hdata

theorem rstStream (code : ErrorCode) :
    Sent session stream (session.rstStream stream code).1 (session.rstStream stream code).2 [] := by
  unfold Session.rstStream
  split
  · exact .refl
  · exact .queue _ rfl rfl rfl

/-- The windows stay where a conversion is possible. -/
theorem level (h : Sent session stream session' stream' frames) {low : Int} (hlow : low ≤ 0) {high : Int}
    (hstream : low ≤ stream.sendWindow ∧ stream.sendWindow ≤ high)
    (hconn : low ≤ session.connSendWindow ∧ session.connSendWindow ≤ high) :
    (low ≤ stream'.sendWindow ∧ stream'.sendWindow ≤ high) ∧
      low ≤ session'.connSendWindow ∧ session'.connSendWindow ≤ high := by
  have hwindow := h.window
  have hconn' := h.conn
  have hsize := size_nonneg frames
  rcases h.covered with hzero | hcovered
  · omega
  · omega

end Sent

/-- The values of a window -/
def Level (window : Int) : Prop := -(maxWindowSize : Int) ≤ window ∧ window ≤ maxWindowSize

theorem toI32_eq {window : Int} (h : Level window) : toI32 window = some window := by
  unfold Level maxWindowSize at h
  cases window with
  | ofNat n =>
    rw [Int.ofNat_eq_natCast] at h
    exact if_pos (by omega)
  | negSucc n => exact if_pos (by omega)

theorem Level.sub {window : Int} (h : Level window) {n : Nat} (hn : n = 0 ∨ (n : Int) ≤ window) : Level (window - n) := by
  unfold Level at *
  omega

theorem toI32_length {n : Nat} (h : n ≤ maxWindowSize) : toI32 n = some (n : Int) :=
  toI32_eq (by
    unfold Level
    omega)

namespace Session
variable {session : Session δ} {stream : Stream}

theorem window_le (h : 0 < session.window stream) :
    (session.window stream : Int) ≤ stream.sendWindow ∧ (session.window stream : Int) ≤ session.connSendWindow := by
  unfold window at *
  omega

theorem writeChunk_eq {chunk : List UInt8} (flags : UInt8) (hstream : Level stream.sendWindow)
    (hconn : Level session.connSendWindow)
    (hpays : chunk = [] ∨ chunk.length ≤ stream.sendWindow ∧ chunk.length ≤ session.connSendWindow) :
    session.writeChunk stream flags chunk = some
      ({session.writeData stream flags chunk with connSendWindow := session.connSendWindow - chunk.length},
        {stream with sendWindow := stream.sendWindow - chunk.length}) := by
  have hpays' : chunk.length = 0 ∨ chunk.length ≤ stream.sendWindow ∧ chunk.length ≤ session.connSendWindow :=
    hpays.imp_left List.length_eq_zero_iff.mpr
  have hlength : chunk.length ≤ maxWindowSize := by
    unfold Level at hstream
    omega
  rw [writeChunk, toI32_length hlength]
  simp only [toI32_eq (hstream.sub (hpays'.imp_right And.left)), toI32_eq (hconn.sub (hpays'.imp_right And.right))]

theorem writeChunk_sent {chunk : List UInt8} (flags : UInt8)
    (hfits : chunk ≠ [] → chunk.length ≤ stream.sendWindow ∧ chunk.length ≤ session.connSendWindow ∧
      chunk.length ≤ session.remoteMaxFrameSize) :
    Sent session stream
      {session.writeData stream flags chunk with connSendWindow := session.connSendWindow - chunk.length}
      {stream with sendWindow := stream.sendWindow - chunk.length}
      [⟨stream.id, flags, chunk, stream.sendWindow, session.connSendWindow, session.remoteMaxFrameSize⟩] :=
  .writeData flags rfl rfl rfl hfits

/-- The chunk that is cut fits. -/
theorem fits_chunk {remaining : List UInt8} {chunkLen : Nat}
    (hchunk : min (min remaining.length session.remoteMaxFrameSize) (session.window stream) = chunkLen) :
    remaining.take chunkLen ≠ [] →
      (remaining.take chunkLen).length ≤ stream.sendWindow ∧ (remaining.take chunkLen).length ≤ session.connSendWindow ∧
        (remaining.take chunkLen).length ≤ session.remoteMaxFrameSize := by
  intro hne
  have hpos := List.length_pos_of_ne_nil hne
  rw [List.length_take] at *
  have hwindow : 0 < session.window stream := by omega
  have hle := window_le hwindow
  omega

/-- The loop frames bytes of the stream, and no conversion fails. -/
theorem writeDataLoop_sent (endStream : Bool) (cap fuel : Nat) (session : Session δ) (stream : Stream)
    (remaining : List UInt8) (consumed : Nat) (hstream : Level stream.sendWindow) (hconn : Level session.connSendWindow) :
    ∃ session' stream' n frames,
      writeDataLoop endStream cap fuel session stream remaining consumed = some (session', stream', n) ∧
        Sent session stream session' stream' frames ∧ stream' = {stream with sendWindow := stream'.sendWindow} := by
  induction fuel generalizing session stream remaining consumed with
  | zero => exact ⟨session, stream, consumed, [], by rw [writeDataLoop], .refl, rfl⟩
  | succ fuel ih =>
    unfold writeDataLoop
    split
    · exact ⟨session, stream, consumed, [], rfl, .refl, rfl⟩
    split
    · exact ⟨session, stream, consumed, [], rfl, .refl, rfl⟩
    split
    · exact ⟨session, stream, consumed, [], rfl, .refl, rfl⟩
    dsimp only
    generalize hchunk : min (min remaining.length session.remoteMaxFrameSize) (session.window stream) = chunkLen
    have hfits := fits_chunk hchunk
    have hpays := Classical.or_iff_not_imp_left.mpr fun hne => (hfits hne).imp_right And.left
    generalize (if chunkLen = remaining.length ∧ endStream = true then Flags.endStream else 0) = flags
    have hsent := writeChunk_sent flags hfits
    simp only [writeChunk_eq flags hstream hconn hpays]
    split
    · exact ⟨_, _, _, _, rfl, hsent, rfl⟩
    · have hlevel := hsent.level (by decide) hstream hconn
      obtain ⟨session', stream', n, frames, hloop, hsent', hset⟩ := ih _ _ _ (consumed + chunkLen) hlevel.1 hlevel.2
      exact ⟨session', stream', n, _, hloop, hsent.trans hsent', hset⟩

/-- A body is framed as far as it can be. -/
theorem drainSendBody_sent (cap : Nat) (hstream : Level stream.sendWindow) (hconn : Level session.connSendWindow) :
    ∃ session' stream' frames,
      session.drainSendBody stream cap = some (session', stream') ∧ Sent session stream session' stream' frames := by
  have hloop := fun data endStream => writeDataLoop_sent endStream cap (data.length + 1) session stream data 0 hstream hconn
  unfold drainSendBody
  split
  · exact ⟨session, stream, [], rfl, .refl⟩
  cases hclient : stream.client with
  | none => exact ⟨session, stream, [], rfl, .refl⟩
  | some client =>
    dsimp only
    cases hbody : client.body with
    | bytes body =>
      obtain ⟨session', stream', n, frames, hloop, hsent, -⟩ := hloop stream.pendingBody true
      simp only [writeDataWindowed, hloop]
      refine ⟨session', _, frames, rfl, ?_⟩
      split
      · exact hsent.set rfl rfl rfl
      · exact hsent.set rfl rfl rfl
    | stream buffer ended =>
      cases buffer with
      | none => exact ⟨session, stream, [], rfl, .refl⟩
      | some data =>
        dsimp only
        split
        · exact ⟨session, stream, [], rfl, .refl⟩
        obtain ⟨session', stream', n, frames, hloop, hsent, -⟩ := hloop data ended
        simp only [writeDataWindowed, hloop]
        refine ⟨session', _, frames, rfl, ?_⟩
        split
        · exact hsent.set rfl rfl rfl
        · exact hsent.set rfl rfl rfl

/-- The frames of a header block are queued. -/
theorem writeHeaderBlock_eq (session : Session δ) (streamId : Nat) (block : List UInt8) (endStream : Bool) :
    ∃ bytes, session.writeHeaderBlock streamId block endStream = session.queue bytes := by
  have hloop : ∀ (fuel : Nat) (session : Session δ) (remaining : List UInt8) (first : Bool),
      ∃ bytes, writeHeaderLoop streamId endStream fuel session remaining first = session.queue bytes := by
    intro fuel
    induction fuel with
    | zero =>
      intro session remaining first
      rw [writeHeaderLoop]
      exact ⟨_, rfl⟩
    | succ fuel ih =>
      intro session remaining first
      rw [writeHeaderLoop]
      split
      · exact ⟨_, rfl⟩
      · obtain ⟨bytes, hrest⟩ := ih _ _ false
        rw [hrest]
        simp only [writeFrame, queue, List.append_assoc]
        exact ⟨_, rfl⟩
  exact hloop block.length session block true

theorem writeHead_sent (request : Request) (encoded : List UInt8) :
    Sent {session with pendingHpackEncCapacity := none} stream (session.writeHead stream request encoded).1
      (session.writeHead stream request encoded).2 [] := by
  obtain ⟨bytes, hqueue⟩ := writeHeaderBlock_eq ({session with pendingHpackEncCapacity := none} : Session δ) stream.id
    ((session.pendingHpackEncCapacity.map encodeHpackTableSizeUpdate).getD [] ++ encoded) (!request.client.hasBody)
  unfold writeHead
  dsimp only
  rw [hqueue]
  exact .queue bytes rfl rfl rfl

/-- A request is queued, with as much of its body as can be framed; or nothing is, where HPACK cannot encode it. -/
theorem writeRequest_sent (request : Request) (hstream : Level stream.sendWindow) (hconn : Level session.connSendWindow) :
    ∃ ok session' stream' frames, session.writeRequest stream request = some (ok, session', stream') ∧
      Sent {session with pendingHpackEncCapacity := none} stream session' stream' frames ∧
      (ok = false → session' = {session with pendingHpackEncCapacity := none} ∧ stream' = stream) := by
  unfold writeRequest
  cases request.encoded with
  | none => exact ⟨false, _, stream, [], rfl, .refl, fun _ => ⟨rfl, rfl⟩⟩
  | some encoded =>
    have hhead : Sent _ stream (session.writeHead stream request encoded).1 _ [] := writeHead_sent request encoded
    dsimp only
    generalize session.writeHead stream request encoded = head at *
    split
    · rename_i byte body hbody
      have hfilled : Sent _ stream head.1 {head.2 with pendingBody := byte :: body} [] := hhead.set rfl rfl rfl
      have hlevel := hfilled.level (by decide) hstream hconn
      obtain ⟨session', stream', frames, hdrain, hsent⟩ := drainSendBody_sent usizeMax hlevel.1 hlevel.2
      rw [hdrain]
      exact ⟨true, session', stream', _, rfl, hfilled.trans hsent, fun h => absurd h (by decide)⟩
    · exact ⟨true, _, _, [], rfl, hhead.set rfl rfl rfl, fun h => absurd h (by decide)⟩
    · exact ⟨true, _, _, [], rfl, hhead, fun h => absurd h (by decide)⟩

/-- The fields of a block change no window but for an empty frame. -/
theorem applyHeaderBlock_sent (startLen : Nat) (fields : Fields δ) :
    ∃ frames, Sent session stream (session.applyHeaderBlock stream startLen fields).1
      (session.applyHeaderBlock stream startLen fields).2 frames := by
  unfold applyHeaderBlock
  split
  · have hchanged : Sent session stream session {stream with decodedBytes := stream.decodedBytes.take startLen} [] :=
      .changed rfl rfl rfl
    exact ⟨_, (hchanged.trans (.rstStream .protocolError)).set rfl rfl rfl⟩
  split
  · refine ⟨[], .changed ?_ ?_ ?_⟩ <;> (split <;> rfl)
  split
  · exact ⟨[], .changed rfl rfl rfl⟩
  split
  · refine ⟨[], .changed ?_ ?_ ?_⟩ <;> (dsimp only; split <;> split <;> rfl)
  dsimp only
  split
  · have hstatus : Sent session stream session {stream with statusCode := fields.status, headersReady := true} [] :=
      .changed rfl rfl rfl
    exact ⟨_, (hstatus.trans (.writeEnd Flags.endStream rfl rfl rfl)).set rfl rfl rfl⟩
  · exact ⟨[], .changed rfl rfl rfl⟩

end Session
end Funbun.Http2
