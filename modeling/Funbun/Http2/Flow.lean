import Funbun.Http2.Runs

/-! Flow control.

Each window is what the peer opened it with and credited it, less the bytes that were framed. The stream's window may be
negative, but not below `-maxWindowSize`, since what was framed on a stream was within the greatest window and the credits. -/
namespace Funbun.Http2
open Library

variable {δ : Type}

/-! ### The accounts -/

/-- What of a core the windows depend on. -/
@[ext] structure Accounts where
  windows : List (Nat × Int)
  nextStreamId : Nat
  initial : Nat
  conn : Int
  framed : List Framed
  credits : List (Nat × Int)

def Core.accounts (core : Core) : Accounts where
  windows := core.streams.map fun stream => (stream.id, stream.sendWindow)
  nextStreamId := core.nextStreamId
  initial := core.remoteInitialWindowSize
  conn := core.connSendWindow
  framed := core.framed
  credits := core.credits

/-- The bytes that were framed, by stream. -/
def spendings (framed : List Framed) : List (Nat × Int) :=
  framed.map fun frame => (frame.streamId, (frame.payload.length : Int))

namespace Accounts

/-- The window of a stream -/
def window (accounts : Accounts) (id : Nat) : Window :=
  ⟨accounts.initial, balance accounts.credits id, balance (spendings accounts.framed) id⟩

/-- The window of the connection, which is opened once. -/
def connWindow (accounts : Accounts) : Window :=
  ⟨defaultWindowSize, balance accounts.credits 0, size accounts.framed⟩

/-- The windows are what the accounts give, and no frame went past them. -/
structure Balanced (accounts : Accounts) : Prop where
  nodup : (accounts.windows.map (·.1)).Nodup
  next_pos : 0 < accounts.nextStreamId
  ids : ∀ window ∈ accounts.windows, 0 < window.1 ∧ window.1 < accounts.nextStreamId
  credited : ∀ credit ∈ accounts.credits, credit.1 < accounts.nextStreamId
  framed : ∀ frame ∈ accounts.framed, frame.streamId < accounts.nextStreamId ∧ frame.Fits
  initial : accounts.initial ≤ maxWindowSize
  conn : accounts.conn = accounts.connWindow.level
  conn_nonneg : 0 ≤ accounts.conn
  conn_le : accounts.conn ≤ maxWindowSize
  windows : ∀ window ∈ accounts.windows, window.2 = (accounts.window window.1).level
  sound : ∀ window ∈ accounts.windows, (accounts.window window.1).Sound maxWindowSize

theorem spendings_append (framed frames : List Framed) : spendings (framed ++ frames) = spendings framed ++ spendings frames :=
  List.map_append

/-- What a stream's frames add to its spendings, and to those of another -/
theorem balance_spendings_own {frames : List Framed} {id : Nat} (h : ∀ frame ∈ frames, frame.streamId = id) :
    balance (spendings frames) id = size frames := by
  have hkeys : ∀ e ∈ spendings frames, e.1 = id := by
    intro e he
    obtain ⟨frame, hframe, rfl⟩ := List.mem_map.mp he
    exact h frame hframe
  rw [balance_of_eq hkeys, spendings, List.map_map]
  rfl

theorem balance_spendings_other {frames : List Framed} {id other : Nat} (h : ∀ frame ∈ frames, frame.streamId = id)
    (hne : other ≠ id) : balance (spendings frames) other = 0 := by
  refine balance_of_ne fun e he => ?_
  obtain ⟨frame, hframe, rfl⟩ := List.mem_map.mp he
  exact fun heq => hne (heq.symm.trans (h frame hframe))

namespace Balanced
variable {accounts : Accounts}

/-- Every conversion of a window is possible. -/
theorem level (h : accounts.Balanced) {window : Nat × Int} (hmem : window ∈ accounts.windows) : Level window.2 := by
  have hsound := h.sound window hmem
  rw [h.windows window hmem]
  exact ⟨hsound.le_level, hsound.level_le⟩

theorem level_conn (h : accounts.Balanced) : Level accounts.conn := by
  have hnonneg := h.conn_nonneg
  have hle := h.conn_le
  unfold Level
  omega

/-- What is in the list of windows when the window of a stream is set -/
theorem mem_set {id : Nat} {next : Int} {w : Nat × Int}
    (h : w ∈ accounts.windows.map fun w => if w.1 = id then (id, next) else w) :
    w = (id, next) ∨ w ∈ accounts.windows ∧ w.1 ≠ id := by
  obtain ⟨old, hold, rfl⟩ := List.mem_map.mp h
  by_cases hid : old.1 = id
  · exact .inl (if_pos hid)
  · rw [if_neg hid]
    exact .inr ⟨hold, hid⟩

theorem ids_set (id : Nat) (next : Int) :
    (accounts.windows.map fun w => if w.1 = id then (id, next) else w).map (·.1) = accounts.windows.map (·.1) := by
  rw [List.map_map]
  refine List.map_congr_left fun w _ => ?_
  show (if w.1 = id then (id, next) else w).1 = w.1
  split
  · rename_i hid
    exact hid.symm
  · rfl

/-- Frames of one stream are paid for by its window and by the connection's. -/
theorem framed_append (h : accounts.Balanced) {id : Nat} {window : Int} (hmem : (id, window) ∈ accounts.windows)
    {frames : List Framed} (hown : ∀ frame ∈ frames, frame.streamId = id) (hfits : ∀ frame ∈ frames, frame.Fits)
    (hcovered : size frames = 0 ∨ 0 ≤ window - size frames ∧ 0 ≤ accounts.conn - size frames) :
    Balanced {accounts with
      windows := accounts.windows.map fun w => if w.1 = id then (id, window - size frames) else w
      conn := accounts.conn - size frames
      framed := accounts.framed ++ frames} := by
  have hsize := size_nonneg frames
  have hwindow : window = (accounts.window id).level := h.windows _ hmem
  have hspend : ∀ other : Nat,
      (⟨accounts.initial, balance accounts.credits other, balance (spendings (accounts.framed ++ frames)) other⟩ : Window) =
        (accounts.window other).spend (balance (spendings frames) other) := by
    intro other
    rw [spendings_append, balance_append]
    rfl
  have hother : ∀ other ≠ id, (accounts.window other).spend (balance (spendings frames) other) = accounts.window other := by
    intro other hne
    rw [balance_spendings_other hown hne]
    show Window.mk _ _ (_ + 0) = _
    rw [Int.add_zero]
  constructor
  · show ((accounts.windows.map _).map _).Nodup
    rw [ids_set]
    exact h.nodup
  · exact h.next_pos
  · intro w hw
    rcases mem_set hw with rfl | ⟨hw, -⟩
    · exact h.ids (id, window) hmem
    · exact h.ids w hw
  · exact h.credited
  · intro frame hframe
    rcases List.mem_append.mp hframe with hframe | hframe
    · exact h.framed frame hframe
    · rw [hown frame hframe]
      exact ⟨(h.ids _ hmem).2, hfits frame hframe⟩
  · exact h.initial
  · have hconn := h.conn
    show accounts.conn - size frames = Window.level ⟨_, _, size (accounts.framed ++ frames)⟩
    rw [size_append]
    show _ = (accounts.connWindow.spend (size frames)).level
    rw [Window.level_spend, ← hconn]
  · have hnonneg := h.conn_nonneg
    show 0 ≤ accounts.conn - size frames
    omega
  · have hle := h.conn_le
    show accounts.conn - size frames ≤ maxWindowSize
    omega
  · intro w hw
    show w.2 = Window.level ⟨_, _, _⟩
    rw [hspend w.1]
    rcases mem_set hw with rfl | ⟨hw, hne⟩
    · rw [balance_spendings_own hown, Window.level_spend, ← hwindow]
    · rw [hother w.1 hne]
      exact h.windows w hw
  · intro w hw
    show Window.Sound _ ⟨_, _, _⟩
    rw [hspend w.1]
    rcases mem_set hw with rfl | ⟨hw, hne⟩
    · rw [balance_spendings_own hown]
      refine (h.sound _ hmem).spend hsize ?_
      show size frames = 0 ∨ 0 ≤ (accounts.window id).level - size frames
      rw [← hwindow]
      exact hcovered.imp_right And.left
    · rw [hother w.1 hne]
      exact h.sound w hw

/-- The peer credits a stream, not past the greatest window. -/
theorem credit (h : accounts.Balanced) {id : Nat} {window : Int} (hmem : (id, window) ∈ accounts.windows) {inc : Int}
    (hinc : 0 ≤ inc) (hle : window + inc ≤ maxWindowSize) :
    Balanced {accounts with
      windows := accounts.windows.map fun w => if w.1 = id then (id, window + inc) else w
      credits := accounts.credits ++ [(id, inc)]} := by
  have hwindow : window = (accounts.window id).level := h.windows _ hmem
  have hpos := (h.ids _ hmem).1
  have hself : ∀ spent : Int, (⟨accounts.initial, balance (accounts.credits ++ [(id, inc)]) id, spent⟩ : Window) =
      Window.credit ⟨accounts.initial, balance accounts.credits id, spent⟩ inc := by
    intro spent
    rw [balance_append, balance_self]
    rfl
  have hother : ∀ other ≠ id, balance (accounts.credits ++ [(id, inc)]) other = balance accounts.credits other := by
    intro other hne
    rw [balance_append, balance_of_ne (List.forall_mem_singleton.mpr hne.symm), Int.add_zero]
  constructor
  · show ((accounts.windows.map _).map _).Nodup
    rw [ids_set]
    exact h.nodup
  · exact h.next_pos
  · intro w hw
    rcases mem_set hw with rfl | ⟨hw, -⟩
    · exact h.ids (id, window) hmem
    · exact h.ids w hw
  · intro entry hentry
    rcases List.mem_append.mp hentry with hentry | hentry
    · exact h.credited entry hentry
    · rw [List.mem_singleton.mp hentry]
      exact (h.ids _ hmem).2
  · exact h.framed
  · exact h.initial
  · show accounts.conn = Window.level ⟨_, balance (accounts.credits ++ [(id, inc)]) 0, _⟩
    rw [hother 0 (Nat.ne_of_lt hpos)]
    exact h.conn
  · exact h.conn_nonneg
  · exact h.conn_le
  · intro w hw
    rcases mem_set hw with rfl | ⟨hw, hne⟩
    · show window + inc = Window.level ⟨_, _, _⟩
      rw [hself, Window.level_credit, hwindow]
      rfl
    · show w.2 = Window.level ⟨_, balance (accounts.credits ++ [(id, inc)]) w.1, _⟩
      rw [hother w.1 hne]
      exact h.windows w hw
  · intro w hw
    rcases mem_set hw with rfl | ⟨hw, hne⟩
    · show Window.Sound _ ⟨_, _, _⟩
      rw [hself]
      exact (h.sound _ hmem).credit hinc (hwindow ▸ hle)
    · show Window.Sound _ ⟨_, balance (accounts.credits ++ [(id, inc)]) w.1, _⟩
      rw [hother w.1 hne]
      exact h.sound w hw

/-- The peer credits the connection. -/
theorem credit_conn (h : accounts.Balanced) {inc : Int} (hinc : 0 ≤ inc) (hle : accounts.conn + inc ≤ maxWindowSize) :
    Balanced {accounts with conn := accounts.conn + inc, credits := accounts.credits ++ [(0, inc)]} := by
  have hother : ∀ other ≠ 0, balance (accounts.credits ++ [(0, inc)]) other = balance accounts.credits other := by
    intro other hne
    rw [balance_append, balance_of_ne (List.forall_mem_singleton.mpr hne.symm), Int.add_zero]
  constructor
  · exact h.nodup
  · exact h.next_pos
  · exact h.ids
  · intro entry hentry
    rcases List.mem_append.mp hentry with hentry | hentry
    · exact h.credited entry hentry
    · rw [List.mem_singleton.mp hentry]
      exact h.next_pos
  · exact h.framed
  · exact h.initial
  · have hconn := h.conn
    show accounts.conn + inc = Window.level ⟨_, balance (accounts.credits ++ [(0, inc)]) 0, _⟩
    rw [balance_append, balance_self]
    show _ = (accounts.connWindow.credit inc).level
    rw [Window.level_credit, ← hconn]
  · have hnonneg := h.conn_nonneg
    show 0 ≤ accounts.conn + inc
    omega
  · exact hle
  · intro w hw
    show w.2 = Window.level ⟨_, balance (accounts.credits ++ [(0, inc)]) w.1, _⟩
    rw [hother w.1 (Nat.ne_of_gt (h.ids w hw).1)]
    exact h.windows w hw
  · intro w hw
    show Window.Sound _ ⟨_, balance (accounts.credits ++ [(0, inc)]) w.1, _⟩
    rw [hother w.1 (Nat.ne_of_gt (h.ids w hw).1)]
    exact h.sound w hw

/-- The peer changes the initial window, and every window with it. -/
theorem resize (h : accounts.Balanced) {initial : Nat} (hinitial : initial ≤ maxWindowSize)
    (hle : ∀ w ∈ accounts.windows, w.2 + ((initial : Int) - accounts.initial) ≤ maxWindowSize) :
    Balanced {accounts with
      windows := accounts.windows.map fun w => (w.1, w.2 + ((initial : Int) - accounts.initial))
      initial := initial} := by
  have hwindow : ∀ id : Nat, (⟨initial, balance accounts.credits id, balance (spendings accounts.framed) id⟩ : Window) =
      (accounts.window id).resize initial := fun id => rfl
  constructor
  · show ((accounts.windows.map _).map _).Nodup
    rw [List.map_map]
    exact h.nodup
  · exact h.next_pos
  · intro w hw
    obtain ⟨old, hold, rfl⟩ := List.mem_map.mp hw
    exact h.ids old hold
  · exact h.credited
  · exact h.framed
  · exact hinitial
  · exact h.conn
  · exact h.conn_nonneg
  · exact h.conn_le
  · intro w hw
    obtain ⟨old, hold, rfl⟩ := List.mem_map.mp hw
    show old.2 + _ = Window.level ⟨_, _, _⟩
    rw [hwindow, Window.level_resize, h.windows old hold]
    rfl
  · intro w hw
    obtain ⟨old, hold, rfl⟩ := List.mem_map.mp hw
    show Window.Sound _ ⟨_, _, _⟩
    rw [hwindow]
    refine (h.sound old hold).resize (Int.natCast_nonneg initial) (Int.ofNat_le.mpr hinitial) ?_
    have hold' := h.windows old hold
    have hle := hle old hold
    show (accounts.window old.1).level + ((initial : Int) - accounts.initial) ≤ maxWindowSize
    rw [← hold']
    exact hle

/-- Windows that are removed, whatever the order of the others -/
theorem removed (h : accounts.Balanced) {windows : List (Nat × Int)} (hnodup : (windows.map (·.1)).Nodup)
    (hsubset : ∀ w ∈ windows, w ∈ accounts.windows) : Balanced {accounts with windows := windows} where
  nodup := hnodup
  next_pos := h.next_pos
  ids := fun w hw => h.ids w (hsubset w hw)
  credited := h.credited
  framed := h.framed
  initial := h.initial
  conn := h.conn
  conn_nonneg := h.conn_nonneg
  conn_le := h.conn_le
  windows := fun w hw => h.windows w (hsubset w hw)
  sound := fun w hw => h.sound w (hsubset w hw)

theorem skipped (h : accounts.Balanced) : Balanced {accounts with nextStreamId := accounts.nextStreamId + 2} where
  nodup := h.nodup
  next_pos := Nat.add_pos_left h.next_pos 2
  ids := fun w hw => (h.ids w hw).imp_right fun hlt => Nat.lt_add_right 2 hlt
  credited := fun credit hcredit => Nat.lt_add_right 2 (h.credited credit hcredit)
  framed := fun frame hframe => (h.framed frame hframe).imp_left fun hlt => Nat.lt_add_right 2 hlt
  initial := h.initial
  conn := h.conn
  conn_nonneg := h.conn_nonneg
  conn_le := h.conn_le
  windows := h.windows
  sound := h.sound

/-- A stream that is opened has the initial window, and no accounts of its own yet. -/
theorem opened (h : accounts.Balanced) :
    Balanced {accounts with
      windows := accounts.windows ++ [(accounts.nextStreamId, (accounts.initial : Int))]
      nextStreamId := accounts.nextStreamId + 2} := by
  have hnew : accounts.window accounts.nextStreamId = ⟨accounts.initial, 0, 0⟩ := by
    unfold window
    rw [balance_of_ne fun credit hcredit => Nat.ne_of_lt (h.credited credit hcredit), balance_of_ne]
    intro e he
    obtain ⟨frame, hframe, rfl⟩ := List.mem_map.mp he
    exact Nat.ne_of_lt (h.framed frame hframe).1
  have hskipped := h.skipped
  have hforall : ∀ {p : Nat × Int → Prop}, (∀ w ∈ accounts.windows, p w) →
      p (accounts.nextStreamId, (accounts.initial : Int)) →
      ∀ w ∈ accounts.windows ++ [(accounts.nextStreamId, (accounts.initial : Int))], p w := by
    intro p hold hlast w hw
    rcases List.mem_append.mp hw with hw | hw
    · exact hold w hw
    · exact List.mem_singleton.mp hw ▸ hlast
  constructor
  · show ((accounts.windows ++ _).map _).Nodup
    rw [List.map_append, List.nodup_append]
    refine ⟨h.nodup, List.nodup_singleton _, ?_⟩
    intro id hid other hother
    obtain ⟨w, hw, rfl⟩ := List.mem_map.mp hid
    rw [List.map_singleton, List.mem_singleton] at hother
    exact hother ▸ Nat.ne_of_lt (h.ids w hw).2
  · exact hskipped.next_pos
  · exact hforall hskipped.ids ⟨h.next_pos, Nat.lt_add_of_pos_right (by decide)⟩
  · exact hskipped.credited
  · exact hskipped.framed
  · exact h.initial
  · exact h.conn
  · exact h.conn_nonneg
  · exact h.conn_le
  · refine hforall h.windows ?_
    show (accounts.initial : Int) = (accounts.window accounts.nextStreamId).level
    rw [hnew]
    show (accounts.initial : Int) = accounts.initial + 0 - 0
    omega
  · refine hforall h.sound ?_
    show (accounts.window accounts.nextStreamId).Sound maxWindowSize
    rw [hnew]
    exact .new (Int.natCast_nonneg _) (Int.ofNat_le.mpr h.initial)

end Balanced
end Accounts
end Funbun.Http2
