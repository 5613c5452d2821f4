import Funbun.Sql.RequestsProofs

/-! Running a request of a MySQL connection, and `do_run`.

`Ran` says once what `run` can do with a pending request. What holds between two steps is `Good`: the
invariant of the queue, and what is true of the place where native code is. -/
namespace Funbun.Sql
open Library (Ahead)
variable {σ : Type}

namespace Inv
variable {r : RequestQueue σ} {statements : Statements σ} {unanswered : List (Command σ)} {l₁ l₂ : List (Query σ)}
  {q q' : Query σ}

/-- Nothing is being prepared if the first pending request is not. -/
theorem not_parsing_of_first (h : Inv {r with requests := l₁ ++ q :: l₂} statements unanswered)
    (hq : q.isPending = true) (hprepared : q.isBeingPrepared statements = false)
    (hbefore : ∀ x ∈ l₁, x.isPending = false) (s : σ) : statements.parsing s = false := by
  by_contra hs
  obtain ⟨_, _, ⟨p, hp, hps⟩, _⟩ := h.preparing s (by simpa using hs)
  rw [List.find?_append, List.find?_eq_none.mpr fun x hx => by simp [hbefore x hx],
    List.find?_cons_of_pos hq] at hp
  injection hp with hp
  subst hp
  rw [Query.isBeingPrepared_iff.mpr ⟨hq, s, hps, by simpa using hs⟩] at hprepared
  cases hprepared

/-- The counters together count the running requests. -/
theorem total (h : Inv r statements unanswered) :
    (r.pipelinedRequests + r.nonpipelinableRequests).toNat = r.requests.countP Query.isRunning := by
  have hsplit : ∀ l : List (Query σ), l.countP (fun q => q.isRunning && q.pipelined) +
      l.countP (fun q => q.isRunning && !q.pipelined) = l.countP Query.isRunning := by
    intro l
    induction l with
    | nil => rfl
    | cons q l ih =>
      rw [List.countP_cons, List.countP_cons, List.countP_cons, ← ih]
      cases q.isRunning <;> cases q.pipelined <;> simp <;> omega
  rw [h.pipelined, h.nonpipelinable, ← hsplit]
  rfl

/-- Where nothing runs and nothing is prepared, everything may be written. -/
theorem flags (h : Inv r statements unanswered) (hrun : ∀ q ∈ r.requests, q.isRunning = false)
    (hprepared : ∀ q ∈ r.requests, q.isBeingPrepared statements = false) :
    r.isReadyForQuery = true ∧ r.waitingToPrepare = false ∧ r.pipelinedRequests = 0 ∧
      r.nonpipelinableRequests = 0 := by
  have hparsing : ∀ s, statements.parsing s = false := by
    intro s
    by_contra hs
    obtain ⟨_, _, ⟨p, hp, hps⟩, _⟩ := h.preparing s (by simpa using hs)
    have hnot := hprepared p (List.mem_of_find?_eq_some hp)
    rw [Query.isBeingPrepared_iff.mpr ⟨List.find?_some hp, s, hps, by simpa using hs⟩] at hnot
    cases hnot
  have hready : r.isReadyForQuery = true := by
    by_contra hready
    rcases h.active (by simpa using hready) with ⟨q, hq, hqrun⟩ | ⟨s, hs⟩
    · rw [hrun q hq] at hqrun
      cases hqrun
    · rw [hparsing s] at hs
      cases hs
  refine ⟨hready, ?_, ?_, h.ready hready⟩
  · by_contra hwait
    obtain ⟨s, hs⟩ := h.waiting (by simpa using hwait)
    rw [hparsing s] at hs
    cases hs
  · rw [h.pipelined, List.countP_eq_zero.mpr fun q hq => by simp [hrun q hq]]
    rfl

end Inv

namespace RequestQueue
variable {statements : Statements σ} {r : RequestQueue σ} {q : Query σ}

theorem started_with (statements : Statements σ) (q : Query σ) (r : RequestQueue σ) (l : List (Query σ)) :
    {r.started statements q with requests := l} = {r with requests := l}.started statements q := by
  unfold started count
  split
  · rfl
  · split
    · split <;> rfl
    · rfl

theorem started_requests : (r.started statements q).requests = r.requests := by
  unfold started
  split
  · rfl
  · split
    · rw [count_requests]
    · rfl

theorem started_of_isBeingPrepared (h : q.isBeingPrepared statements = true) :
    r.started statements q = {r with isReadyForQuery := false, waitingToPrepare := true} := by
  rw [started, if_pos h]

theorem started_of_isRunning (h : q.isRunning = true) :
    r.started statements q = {r with isReadyForQuery := false}.count q 1 := by
  have hprepared : q.isBeingPrepared statements = false := by
    simp [Query.isBeingPrepared, Query.isPending_false_of_isRunning h]
  rw [started, hprepared, if_neg (by decide), if_pos h]

theorem started_of_waiting (hprepared : q.isBeingPrepared statements = false) (hrun : q.isRunning = false) :
    r.started statements q = r := by
  rw [started, hprepared, hrun, if_neg (by decide), if_neg (by decide)]

end RequestQueue

theorem Query.fail_of_isPending {q : Query σ} (h : q.isPending = true) : q.fail = ({q with status := .fail}, true) := by
  rw [Query.fail, Query.isCompleted_false_of_isPending h, if_neg (by decide)]

theorem Query.Sound.fails {statements : Statements σ} {q : Query σ} (h : q.Sound statements) :
    ({q with status := .fail} : Query σ).Sound statements :=
  ⟨h.simple, (fun hp => by cases hp), (fun hr => by cases hr), fun hr => by cases hr⟩

namespace Connection
variable {c c' : Connection σ} {q q' : Query σ}

theorem canExecuteQuery_iff : c.canExecuteQuery = true ↔ c.isAbleToWrite = true ∧ c.queue.isReadyForQuery = true ∧
    c.queue.nonpipelinableRequests = 0 ∧ c.queue.pipelinedRequests = 0 := by
  simp [canExecuteQuery, RequestQueue.canExecuteQuery, and_assoc]

theorem canPrepareQuery_iff : c.canPrepareQuery = true ↔ c.isAbleToWrite = true ∧ c.queue.isReadyForQuery = true ∧
    c.queue.waitingToPrepare = false ∧ c.queue.pipelinedRequests = 0 := by
  simp [canPrepareQuery, RequestQueue.canPrepareQuery, and_assoc]

theorem canPipeline_iff : c.canPipeline = true ↔ c.disabled = false ∧ c.queue.isReadyForQuery = true ∧
    c.queue.nonpipelinableRequests = 0 ∧ c.queue.waitingToPrepare = false ∧ c.isAbleToWrite = true := by
  simp [canPipeline, RequestQueue.canPipeline, and_assoc]

/-- A request in its place in the queue, with the queue's flags as the connection has them. -/
def At (c : Connection σ) (l₁ : List (Query σ)) (q : Query σ) (l₂ : List (Query σ)) : Prop :=
  Inv {c.queue with requests := l₁ ++ q :: l₂} c.statements c.unanswered

variable {l₁ l₂ : List (Query σ)} {r : Connection σ × Query σ × Outcome} {point : Point}

theorem At.sound (h : c.At l₁ q l₂) : q.Sound c.statements := Inv.sound h q (by simp)

/-- A request that was written is counted. -/
theorem At.start (h : c.At l₁ q l₂) (hq : q.isPending = true) (hnone : ∀ s, c.statements.parsing s = false)
    (hbefore : ∀ x ∈ l₁, x.isPending = false) (hrun : q'.isRunning = true) (hsound : q'.Sound c.statements)
    (hsimple : q'.simple = true → ∀ x ∈ l₁, x.isRunning = false) :
    Inv ({c.queue with requests := l₁ ++ q' :: l₂}.started c.statements q') c.statements
      (c.unanswered ++ [q'.command]) := by
  rw [RequestQueue.started_of_isRunning hrun]
  exact Inv.start (r := c.queue) h hq hnone hbefore hrun hsound hsimple

/-- Whether running a request would have it written. -/
def startsStatement (c : Connection σ) (s : σ) : Bool :=
  match c.statements s with
  | some .pending | none => c.canPrepareQuery
  | _ => false

def starts (c : Connection σ) (q : Query σ) : Bool :=
  if q.simple then c.canExecuteQuery else q.statement.any c.startsStatement

/-- A request that cannot be written. -/
def Blocked (c : Connection σ) (q : Query σ) : Prop :=
  c.canExecuteQuery = false ∨ c.canPipeline = false ∨ c.canPrepareQuery = false ∨ q.isBeingPrepared c.statements = true

/-- What `run` comes to, for a pending request. -/
inductive Ran [DecidableEq σ] (c : Connection σ) (q : Query σ) : Connection σ × Query σ × Outcome → Prop where
  | waits : c.Blocked q → Ran c q (c, q, .ok)
  | query : q.simple = true → c.canExecuteQuery = true →
      Ran c q (c.write (.query q.id), {q with status := .running}, .ok)
  | signature : q.simple = false → q.statement = none → Ran c q (c, q, .script .signature)
  | bind {s : σ} : q.simple = false → q.statement = some s → c.statements s = some .prepared → c.canPipeline = true →
      Ran c q (c, q, .script .bind)
  | prepare {s : σ} : q.simple = false → q.statement = some s →
      c.statements s = some .pending ∨ c.statements s = none → c.canPrepareQuery = true →
      Ran c q ({c.write (.prepare s) with statements := c.statements.set s (.parsing false)}, q, .ok)
  | fails {s : σ} : q.statement = some s → c.statements s = some .failed → Ran c q (c, {q with status := .fail}, .err)

theorem ran_statement [DecidableEq σ] (hq : q.isPending = true) (hsimple : q.simple = false) {s : σ} (hs : q.statement = some s) :
    Ran c q (guarded (c.runStatement q s)) := by
  unfold runStatement
  cases hstatus : c.statements s with
  | none =>
    cases hcan : c.canPrepareQuery with
    | true => exact .prepare hsimple hs (Or.inr hstatus) hcan
    | false => exact .waits (Or.inr (Or.inr (Or.inl hcan)))
  | some status =>
    cases status with
    | failed =>
      show Ran c q (c, q.fail.1, .err)
      rw [Query.fail_of_isPending hq]
      exact .fails hs hstatus
    | prepared =>
      cases hcan : c.canPipeline with
      | true => exact .bind hsimple hs hstatus hcan
      | false => exact .waits (Or.inr (Or.inl hcan))
    | parsing described =>
      have hparsing : c.statements.parsing s = true := Statements.parsing_iff.mpr ⟨described, hstatus⟩
      exact .waits (Or.inr (Or.inr (Or.inr (Query.isBeingPrepared_iff.mpr ⟨hq, s, hs, hparsing⟩))))
    | pending =>
      cases hcan : c.canPrepareQuery with
      | true => exact .prepare hsimple hs (Or.inl hstatus) hcan
      | false => exact .waits (Or.inr (Or.inr (Or.inl hcan)))

theorem ran [DecidableEq σ] (hq : q.isPending = true) (hprepared : q.isBeingPrepared c.statements = false) : Ran c q (c.run q) := by
  rw [run, hq, hprepared]
  show Ran c q (guarded (c.runQuery q))
  unfold runQuery
  cases hsimple : q.simple with
  | true =>
    show Ran c q (guarded (c.runSimpleQuery q))
    unfold runSimpleQuery
    cases hcan : c.canExecuteQuery with
    | true =>
      rw [if_neg (by simp [Query.status_of_isPending.mp hq])]
      exact .query hsimple hcan
    | false =>
      rw [if_pos (Or.inr rfl)]
      exact .waits (Or.inl hcan)
  | false =>
    cases hs : q.statement with
    | none => exact .signature hsimple hs
    | some s => exact ran_statement hq hsimple hs

theorem Ran.failed [DecidableEq σ] (h : Ran c q r) (herr : r.2.2 = .err) :
    ∃ s, q.statement = some s ∧ c.statements s = some .failed := by
  cases h with
  | fails hstatement hstatus => exact ⟨_, hstatement, hstatus⟩
  | _ => cases herr

theorem Ran.ne_err [DecidableEq σ] (h : Ran c q r)
    (hs : ∀ s, q.statement = some s → c.statements s ≠ some .failed) : r.2.2 ≠ .err := by
  intro herr
  obtain ⟨s, hstatement, hstatus⟩ := h.failed herr
  exact hs s hstatement hstatus

/-! ### A request that is run -/

section
variable {l₁ l₂ : List (Query σ)}

/-- A request that `run` has returned from, in its place. -/
theorem Ran.ok [DecidableEq σ] (hran : Ran c q (c', q', .ok)) (h : c.At l₁ q l₂) (hq : q.isPending = true)
    (hbefore : c.starts q = true → ∀ x ∈ l₁, x.isPending = false) :
    Inv ({c'.queue with requests := l₁ ++ q' :: l₂}.started c'.statements q') c'.statements c'.unanswered := by
  have hqrun : q.isRunning = false := Query.isRunning_false_of_isPending hq
  cases hran with
  | waits hblocked =>
    cases hprepared : q.isBeingPrepared c.statements with
    | true =>
      obtain ⟨_, s, _, hs⟩ := Query.isBeingPrepared_iff.mp hprepared
      rw [RequestQueue.started_of_isBeingPrepared hprepared]
      exact Inv.wait h hs
    | false =>
      rw [RequestQueue.started_of_waiting hprepared hqrun]
      exact h
  | query hsimple hcan =>
    obtain ⟨_, hready, hnon, hpip⟩ := canExecuteQuery_iff.mp hcan
    have hstarts : c.starts q = true := by rw [starts, if_pos hsimple, hcan]
    have hnone := Inv.none_running h hready hpip
    have hcmd : ({q with status := .running} : Query σ).command = .query q.id := by
      rw [Query.command, if_pos hsimple]
    show Inv _ c.statements (c.unanswered ++ [.query q.id])
    rw [← hcmd]
    refine h.start hq (Inv.not_parsing h hready) (hbefore hstarts) rfl ?_ fun _ x hx => hnone x (by simp [hx])
    refine ⟨h.sound.simple, (fun hp => by cases hp), fun _ => ?_, fun _ hs => absurd hs (by simp [hsimple])⟩
    show q.pipelined = !q.simple
    rw [h.sound.pending hq, hsimple]
    rfl
  | @prepare s hsimple hs hstatus hcan =>
    obtain ⟨_, hready, _, hpip⟩ := canPrepareQuery_iff.mp hcan
    have hstarts : c.starts q = true := by
      rw [starts, hsimple, if_neg (by decide), hs]
      show c.startsStatement s = true
      unfold startsStatement
      rcases hstatus with hstatus | hstatus <;> rw [hstatus] <;> exact hcan
    have hprepared : q.isBeingPrepared (c.statements.set s (.parsing false)) = true := by
      refine Query.isBeingPrepared_iff.mpr ⟨hq, s, hs, ?_⟩
      rw [Statements.parsing_set, if_pos rfl]
      rfl
    rw [RequestQueue.started_of_isBeingPrepared hprepared]
    refine Inv.prepare (r := {c.queue with requests := l₁ ++ q :: l₂}) h hready hpip ⟨q, ?_, hs⟩ ?_
    · show (l₁ ++ q :: l₂).find? Query.isPending = some q
      rw [List.find?_append, List.find?_eq_none.mpr fun x hx => by simp [hbefore hstarts x hx],
        List.find?_cons_of_pos hq]
      rfl
    · rcases hstatus with hstatus | hstatus <;> rw [hstatus] <;> exact fun h => by cases h

/-- A request that has been bound is written. -/
theorem At.execute (h : c.At l₁ q l₂) (hq : q.isPending = true) (hsimple : q.simple = false) {s : σ}
    (hs : q.statement = some s) (hprepared : c.statements s = some .prepared)
    (hbefore : ∀ x ∈ l₁, x.isPending = false) :
    Inv ({c.queue with requests := l₁ ++ {q with status := .running, pipelined := true} :: l₂}.started c.statements
      {q with status := .running, pipelined := true}) c.statements (c.unanswered ++ [.execute q.id]) := by
  have hnot : q.isBeingPrepared c.statements = false := by
    by_contra hnot
    obtain ⟨_, t, ht, hparsing⟩ := Query.isBeingPrepared_iff.mp (by simpa using hnot)
    rw [hs] at ht
    cases ht
    rw [Statements.not_parsing hprepared rfl] at hparsing
    cases hparsing
  have hcmd : ({q with status := .running, pipelined := true} : Query σ).command = .execute q.id := by
    rw [Query.command, if_neg (by simp [hsimple])]
  rw [← hcmd]
  refine h.start hq (Inv.not_parsing_of_first h hq hnot hbefore) hbefore rfl ?_ fun hx => ?_
  · refine ⟨h.sound.simple, (fun hp => by cases hp), fun _ => ?_, fun _ _ => ⟨s, hs, hprepared⟩⟩
    show true = !q.simple
    rw [hsimple]
    rfl
  · rw [show ({q with status := .running, pipelined := true} : Query σ).simple = q.simple from rfl, hsimple] at hx
    cases hx

/-- A request that has failed, in its place. -/
theorem At.fails (h : c.At l₁ q l₂) (hq : q.isPending = true) (hnot : q.isBeingPrepared c.statements = false) :
    c.At l₁ {q with status := .fail} l₂ :=
  Inv.replace (r := c.queue) h hq hnot rfl h.sound.fails

end

/-! ### What holds between two steps -/

/-- A request whose script runs. -/
structure Suspended (c : Connection σ) (point : Point) (q : Query σ) : Prop where
  pending : q.isPending = true
  simple : q.simple = false
  pipelined : q.pipelined = false
  statement : match point with
    | .signature => q.statement = none
    | .bind => ∃ s, q.statement = some s ∧ c.statements s = some .prepared

/-- A place of the loop of `advance`: if something may be written there, nothing pending stands before it. -/
def Placed (r : RequestQueue σ) (offset : Nat) : Prop :=
  r.isReadyForQuery = true →
    (offset = 0 ∨ r.requests.countP Query.isRunning ≤ offset) ∧ ∀ q ∈ r.requests.take offset, q.isPending = false

/-- What is true where native code is. -/
def TaskInv (c : Connection σ) : Prop :=
  match c.task with
  | .idle | .callback _ => True
  | .flush => c.calls = []
  | .advance offset => c.calls = [] ∧ Placed c.queue offset
  | .script offset point => ∃ q, c.queue.requests[offset]? = some q ∧ c.Suspended point q ∧ Placed c.queue offset ∧
      (point = .bind → c.queue.isReadyForQuery = true)

structure Good (c : Connection σ) : Prop where
  inv : Inv c.queue c.statements c.unanswered
  task : c.TaskInv
  calls : ∀ call ∈ c.calls, c.Suspended call.1 call.2
  enabled : c.disabled = false

/-- If everything may be written and nothing is under way, nothing is pending. -/
def Quiet (c : Connection σ) : Prop :=
  c.isAbleToWrite = true →
    (∀ q ∈ c.queue.requests, q.isRunning = false ∧ q.isBeingPrepared c.statements = false) →
      ∀ q ∈ c.queue.requests, q.isPending = false

theorem Suspended.mono (h : c.Suspended point q)
    (hprepared : ∀ s, c.statements s = some .prepared → c'.statements s = some .prepared) : c'.Suspended point q := by
  refine ⟨h.pending, h.simple, h.pipelined, ?_⟩
  cases point with
  | signature => exact h.statement
  | bind =>
    obtain ⟨s, hs, hstatus⟩ := h.statement
    exact ⟨s, hs, hprepared s hstatus⟩

theorem Suspended.sound (h : c.Suspended point q) : q.Sound c.statements :=
  ⟨(fun hs => absurd hs (by simp [h.simple])), fun _ => h.pipelined,
    (fun hrun => absurd hrun (by simp [Query.isRunning_false_of_isPending h.pending])),
    fun hrun => absurd hrun (by simp [Query.isRunning_false_of_isPending h.pending])⟩

/-- A request that runs script is not being prepared. -/
theorem Suspended.not_prepared (h : c.Suspended point q) : q.isBeingPrepared c.statements = false := by
  by_contra hnot
  obtain ⟨_, s, hs, hparsing⟩ := Query.isBeingPrepared_iff.mp (by simpa using hnot)
  cases point with
  | signature =>
    have hnone : q.statement = none := h.statement
    rw [hs] at hnone
    cases hnone
  | bind =>
    obtain ⟨t, ht, hstatus⟩ := h.statement
    rw [hs] at ht
    cases ht
    rw [Statements.not_parsing hstatus rfl] at hparsing
    cases hparsing

/-- Where native code is does not depend on the rest of the connection. -/
theorem TaskInv.congr (h : c.TaskInv) (htask : c'.task = c.task) (hqueue : c'.queue = c.queue)
    (hprepared : ∀ s, c.statements s = some .prepared → c'.statements s = some .prepared)
    (hcalls : c.busy = true → c'.calls = c.calls) : c'.TaskInv := by
  unfold TaskInv at h ⊢
  rw [htask, hqueue]
  cases hcase : c.task with
  | idle => trivial
  | callback next => trivial
  | flush =>
    rw [hcase] at h
    exact (hcalls (by rw [busy, hcase])).trans h
  | advance offset =>
    rw [hcase] at h
    exact ⟨(hcalls (by rw [busy, hcase])).trans h.1, h.2⟩
  | script offset point =>
    rw [hcase] at h
    obtain ⟨p, hp, hsuspended, hplaced, hbind⟩ := h
    exact ⟨p, hp, hsuspended.mono hprepared, hplaced, hbind⟩

/-- The flags of the queue may change where a request is added that is not running. -/
theorem Placed.add {r r' : RequestQueue σ} {offset : Nat} (h : Placed r offset) (hq : q.isRunning = false)
    (hl : r'.requests = r.requests ++ [q]) (hready : r'.isReadyForQuery = true → r.isReadyForQuery = true)
    (hoffset : offset < r.requests.length) : Placed r' offset := by
  intro hr
  obtain ⟨hplace, hbefore⟩ := h (hready hr)
  rw [hl, List.countP_append, List.take_append_of_le_length (Nat.le_of_lt hoffset)]
  refine ⟨?_, hbefore⟩
  simpa [hq] using hplace

/-- A pending request is added. -/
theorem Good.add (h : c.Good) (htask : c.busy = false) (hq : q.isPending = true) (hsound : q.Sound c.statements) :
    ({c with queue := c.queue.add c.statements q} : Connection σ).Good := by
  have hrun : q.isRunning = false := Query.isRunning_false_of_isPending hq
  have hadded := h.inv.add_pending hq hsound
  have hinv : Inv (c.queue.add c.statements q) c.statements c.unanswered ∧
      ((c.queue.add c.statements q).isReadyForQuery = c.queue.isReadyForQuery) := by
    show Inv {c.queue.started c.statements q with requests := _} _ _ ∧
      (c.queue.started c.statements q).isReadyForQuery = _
    rw [RequestQueue.started_with]
    cases hprepared : q.isBeingPrepared c.statements with
    | true =>
      obtain ⟨_, s, _, hs⟩ := Query.isBeingPrepared_iff.mp hprepared
      rw [RequestQueue.started_of_isBeingPrepared hprepared, RequestQueue.started_of_isBeingPrepared hprepared]
      exact ⟨hadded.wait hs, (h.inv.preparing s hs).1.symm⟩
    | false =>
      rw [RequestQueue.started_of_waiting hprepared hrun, RequestQueue.started_of_waiting hprepared hrun]
      exact ⟨hadded, rfl⟩
  refine ⟨hinv.1, ?_, fun call hcall => (h.calls call hcall).mono fun s hs => hs, h.enabled⟩
  have htaskinv := h.task
  unfold TaskInv at htaskinv ⊢
  cases hcase : c.task with
  | idle => trivial
  | callback next => trivial
  | flush =>
    rw [busy, hcase] at htask
    cases htask
  | advance offset =>
    rw [busy, hcase] at htask
    cases htask
  | script offset point =>
    rw [hcase] at htaskinv
    obtain ⟨p, hp, hsuspended, hplaced, hbind⟩ := htaskinv
    have hoffset : offset < c.queue.requests.length := (List.getElem?_eq_some_iff.mp hp).1
    refine ⟨p, ?_, hsuspended.mono fun s hs => hs, hplaced.add hrun rfl (fun hr => hinv.2 ▸ hr) hoffset, ?_⟩
    · show (c.queue.requests ++ [q])[offset]? = some p
      rw [List.getElem?_append_left hoffset, hp]
    · exact fun hpoint => hinv.2.trans (hbind hpoint)

/-- Statements are made. -/
theorem Good.congr_statements {statements : Statements σ} (h : c.Good)
    (hparsing : ∀ s, statements.parsing s = c.statements.parsing s)
    (hprepared : ∀ s, c.statements s = some .prepared → statements s = some .prepared) :
    ({c with statements := statements} : Connection σ).Good := by
  exact ⟨h.inv.congr_statements hparsing hprepared, h.task.congr rfl rfl hprepared fun _ => rfl,
    fun call hcall => (h.calls call hcall).mono hprepared, h.enabled⟩

/-! ### `do_run` -/

theorem TaskInv.of_none_pending (h : c.TaskInv) (hbusy : c.busy = false)
    (hnone : ∀ q ∈ c.queue.requests, q.isPending = false) (htask : c'.task = c.task) : c'.TaskInv := by
  unfold TaskInv at h ⊢
  rw [htask]
  cases hcase : c.task with
  | idle => trivial
  | callback next => trivial
  | flush =>
    rw [busy, hcase] at hbusy
    cases hbusy
  | advance offset =>
    rw [busy, hcase] at hbusy
    cases hbusy
  | script offset point =>
    rw [hcase] at h
    obtain ⟨q, hq, hsuspended, _⟩ := h
    have hpending := hnone q (List.mem_of_getElem? hq)
    rw [hsuspended.pending] at hpending
    cases hpending

theorem Good.at_end (h : c.Good) (hq : q.isPending = true) (hsound : q.Sound c.statements) :
    c.At c.queue.requests q [] :=
  h.inv.add_pending hq hsound

/-- A request that was written at once is added. -/
theorem Good.add_started (h : c.Good) (hbusy : c.busy = false)
    (hnone : ∀ q ∈ c.queue.requests, q.isPending = false)
    (hinv : Inv ({c'.queue with requests := c.queue.requests ++ q' :: []}.started c'.statements q') c'.statements c'.unanswered)
    (hqueue : c'.queue = c.queue) (htask : c'.task = c.task) (hcalls : c'.calls = c.calls)
    (hdisabled : c'.disabled = c.disabled)
    (hprepared : ∀ s, c.statements s = some .prepared → c'.statements s = some .prepared) :
    ({c' with queue := c'.queue.add c'.statements q'} : Connection σ).Good := by
  refine ⟨?_, h.task.of_none_pending hbusy hnone htask, ?_, hdisabled.trans h.enabled⟩
  · show Inv {c'.queue.started c'.statements q' with requests := c'.queue.requests ++ [q']} _ _
    rw [RequestQueue.started_with, hqueue]
    rw [hqueue] at hinv
    exact hinv
  · intro call hcall
    have hcall' : call ∈ c.calls := hcalls ▸ hcall
    exact (h.calls call hcall').mono hprepared

section
variable [DecidableEq σ] {r : Connection σ × Query σ × Outcome}

theorem set_prepared {statements : Statements σ} {s t : σ} {status : StatementStatus}
    (hs : statements s ≠ some .prepared) (ht : statements t = some .prepared) :
    statements.set s status t = some .prepared := by
  have hts : t ≠ s := fun hts => hs (hts ▸ ht)
  show (if t = s then some _ else statements t) = _
  rw [if_neg hts, ht]

/-- A request that `do_run` has run as far as it goes. -/
theorem Good.finishDoRun (h : c.Good) (hbusy : c.busy = false) (hq : q.isPending = true) (hpipelined : q.pipelined = false)
    (hsound : q.Sound c.statements) (hran : Ran c q r)
    (hfirst : c.starts q = true → ∀ x ∈ c.queue.requests, x.isPending = false) :
    (finishDoRun r).Good := by
  obtain ⟨c', q', out⟩ := r
  have hpush : ∀ point : Point, c.Suspended point q → ({c with calls := (point, q) :: c.calls} : Connection σ).Good := by
    intro point hsuspended
    have hcalls : ∀ call ∈ (point, q) :: c.calls, c.Suspended call.1 call.2 :=
      List.forall_mem_cons.mpr ⟨hsuspended, h.calls⟩
    exact ⟨h.inv, h.task.congr rfl rfl (fun s hs => hs) fun hb => absurd hb (by simp [hbusy]),
      fun call hcall => (hcalls call hcall).mono fun s hs => hs, h.enabled⟩
  have hok := fun (hran : Ran c q (c', q', .ok)) => hran.ok (h.at_end hq hsound) hq hfirst
  cases hran with
  | waits => exact h.add hbusy hq hsound
  | query hsimple hcan =>
    have hstarts : c.starts q = true := by rw [starts, if_pos hsimple, hcan]
    exact h.add_started hbusy (hfirst hstarts) (hok (.query hsimple hcan)) rfl rfl rfl rfl fun s hs => hs
  | signature hsimple hnone => exact hpush .signature ⟨hq, hsimple, hpipelined, hnone⟩
  | @bind s hsimple hs hstatus hcan => exact hpush .bind ⟨hq, hsimple, hpipelined, s, hs, hstatus⟩
  | @prepare s hsimple hs hstatus hcan =>
    have hstarts : c.starts q = true := by
      rw [starts, hsimple, if_neg (by decide), hs]
      show c.startsStatement s = true
      unfold startsStatement
      rcases hstatus with hstatus | hstatus <;> rw [hstatus] <;> exact hcan
    refine h.add_started hbusy (hfirst hstarts) (hok (.prepare hsimple hs hstatus hcan)) rfl rfl rfl rfl
      fun t ht => set_prepared (fun hp => ?_) ht
    rcases hstatus with hstatus | hstatus <;> rw [hstatus] at hp <;> cases hp
  | fails => exact h

/-- The connection when a statement has been looked up. -/
def found (c : Connection σ) (s : σ) : Connection σ :=
  match c.statements s with
  | some _ => c
  | none => {c with statements := c.statements.set s .pending}

theorem found_eq {s : σ} :
    c.found s = c ∨ c.statements s = none ∧ c.found s = {c with statements := c.statements.set s .pending} := by
  unfold found
  cases h : c.statements s with
  | some status => exact Or.inl rfl
  | none => exact Or.inr ⟨rfl, rfl⟩

theorem lookUp_cases (hq : q.isPending = true) (hsimple : q.simple = false) :
    (c.statements q.signature = some .failed ∧ guarded (c.lookUp q) = (c, {q with status := .fail}, .err)) ∨
      (c.statements q.signature ≠ some .failed ∧
        Ran (c.found q.signature) {q with statement := some q.signature} (guarded (c.lookUp q))) := by
  have hrun : ∀ c₁ : Connection σ, Ran c₁ {q with statement := some q.signature}
      (guarded (c₁.runStatement {q with statement := some q.signature} q.signature)) :=
    fun c₁ => ran_statement (q := {q with statement := some q.signature}) hq hsimple rfl
  unfold lookUp found
  cases hstatus : c.statements q.signature with
  | none => exact Or.inr ⟨(fun h => by cases h), hrun _⟩
  | some status =>
    cases status with
    | failed =>
      refine Or.inl ⟨rfl, ?_⟩
      show (c, q.fail.1, Outcome.err) = _
      rw [Query.fail_of_isPending hq]
    | pending => exact Or.inr ⟨(fun h => by cases h), hrun _⟩
    | parsing described => exact Or.inr ⟨(fun h => by cases h), hrun _⟩
    | prepared => exact Or.inr ⟨(fun h => by cases h), hrun _⟩

theorem parsing_found (c : Connection σ) (s t : σ) : (c.found s).statements.parsing t = c.statements.parsing t := by
  rcases found_eq (c := c) (s := s) with heq | ⟨hnone, heq⟩
  · rw [heq]
  · rw [heq]
    show (c.statements.set s .pending).parsing t = _
    rw [Statements.parsing_set]
    split
    · rename_i hts
      rw [hts, Statements.parsing, hnone]
      rfl
    · rfl

theorem prepared_found {s t : σ} (ht : c.statements t = some .prepared) : (c.found s).statements t = some .prepared := by
  rcases found_eq (c := c) (s := s) with heq | ⟨hnone, heq⟩
  · rw [heq, ht]
  · rw [heq]
    exact set_prepared (fun h => by rw [hnone] at h; cases h) ht

/-- Looking a statement up changes nothing but the statements. -/
theorem found_with (c : Connection σ) (s : σ) : c.found s = {c with statements := (c.found s).statements} := by
  rcases found_eq (c := c) (s := s) with heq | ⟨_, heq⟩ <;> rw [heq]

theorem Good.found (h : c.Good) (s : σ) : (c.found s).Good := by
  rw [found_with]
  exact h.congr_statements (parsing_found c s) fun _ => prepared_found

theorem starts_found {s : σ} (hsimple : q.simple = false) :
    (c.found s).starts {q with statement := some s} = c.startsStatement s := by
  show (if q.simple then _ else (some s).any (c.found s).startsStatement) = _
  rw [hsimple, if_neg (by decide)]
  show (c.found s).startsStatement s = _
  rcases found_eq (c := c) (s := s) with heq | ⟨hnone, heq⟩
  · rw [heq]
  · rw [heq, startsStatement, startsStatement, hnone]
    show (match (if s = s then some StatementStatus.pending else c.statements s) with
      | some .pending | none => c.canPrepareQuery
      | _ => false) = _
    rw [if_pos rfl]

/-! ### The conditions -/

/-- Whether a command is written by `do_run` with this input. -/
def writes (c : Connection σ) : Input σ → Bool
  | .doRun simple _ => simple && c.canExecuteQuery
  | .resume true => match c.calls with
    | (.bind, _) :: _ => true
    | (.signature, q) :: _ => c.startsStatement q.signature
    | [] => false
  | _ => false

/-- Whether the request at the front fails to run with this input. -/
def failsAtFront (c : Connection σ) : Input σ → Bool
  | .tick => match c.task, c.queue.requests with
    | .advance 0, q :: _ =>
      c.isAbleToWrite && q.isPending && !q.simple && q.statement.any fun s => c.statements s == some .failed
    | _, _ => false
  | .resume ok => match c.calls, c.task, c.queue.requests with
    | [], .script 0 point, q :: _ => !ok || point == .signature && c.statements q.signature == some .failed
    | _, _, _ => false
  | _ => false

/-- The condition on a step: `do_run` writes nothing while a request is pending in the queue, a
request that fails at the front is the only one, every row can be turned into a value, and a packet
does not find a request at the front that has ended. -/
structure Fine (c : Connection σ) (input : Input σ) : Prop where
  overtakes : c.writes input = true → ∀ q ∈ c.queue.requests, q.isPending = false
  skips : c.failsAtFront input = true → c.queue.requests.length ≤ 1
  rows : input ≠ .packet .badRow
  current : input.isPacket = true → ∀ q ∈ c.queue.requests.head?, q.isCompleted = false

instance (c : Connection σ) (input : Input σ) : Decidable (c.Fine input) :=
  decidable_of_iff ((c.writes input = true → ∀ q ∈ c.queue.requests, q.isPending = false) ∧
      (c.failsAtFront input = true → c.queue.requests.length ≤ 1) ∧ input ≠ .packet .badRow ∧
      (input.isPacket = true → ∀ q ∈ c.queue.requests.head?, q.isCompleted = false))
    ⟨fun h => ⟨h.1, h.2.1, h.2.2.1, h.2.2.2⟩, fun h => ⟨h.overtakes, h.skips, h.rows, h.current⟩⟩

/-- `do_run` of a new request. -/
theorem Good.doRun (h : c.Good) (hbusy : c.busy = false) {simple : Bool} {signature : σ}
    (hfine : c.Fine (.doRun simple signature)) : (c.doRun simple signature).Good := by
  have hgood : ({c with nextId := c.nextId + 1} : Connection σ).Good :=
    ⟨h.inv, h.task.congr rfl rfl (fun s hs => hs) fun _ => rfl,
      fun call hcall => (h.calls call hcall).mono fun s hs => hs, h.enabled⟩
  have hsound : (Query.init c.nextId simple signature).Sound c.statements :=
    ⟨fun _ => rfl, fun _ => rfl, (fun hrun => by cases hrun), fun hrun => by cases hrun⟩
  refine hgood.finishDoRun hbusy rfl rfl hsound (ran rfl rfl) fun hstarts => hfine.overtakes ?_
  cases simple with
  | true => exact hstarts
  | false => exact hstarts

/-- A call of `do_run` goes on when its script returns. -/
theorem Good.resumeCall (h : c.Good) (hbusy : c.busy = false) {point : Point} {calls : List (Point × Query σ)}
    (hcalls : c.calls = (point, q) :: calls) {ok : Bool} (hfine : c.Fine (.resume ok)) :
    (Connection.finishDoRun ({c with calls := calls}.resumeRun q point ok)).Good := by
  have hsuspended : c.Suspended point q := h.calls (point, q) (by simp [hcalls])
  have hgood : ({c with calls := calls} : Connection σ).Good := by
    refine ⟨h.inv, h.task.congr rfl rfl (fun s hs => hs) fun hb => absurd hb (by simp [hbusy]), fun call hcall => ?_,
      h.enabled⟩
    exact (h.calls call (by rw [hcalls]; exact List.mem_cons_of_mem _ hcall)).mono fun s hs => hs
  have hpending := hsuspended.pending
  cases ok with
  | false =>
    show (Connection.finishDoRun (guarded (_, q, .err))).Good
    exact hgood
  | true =>
    have hoverlap := hfine.overtakes
    cases point with
    | signature =>
      show (Connection.finishDoRun (guarded (lookUp _ q))).Good
      rw [writes, hcalls] at hoverlap
      rcases lookUp_cases (c := {c with calls := calls}) hpending hsuspended.simple with ⟨_, heq⟩ | ⟨_, hran⟩
      · rw [heq]
        exact hgood
      · have hfound := hgood.found q.signature
        have hsame := found_with ({c with calls := calls} : Connection σ) q.signature
        refine hfound.finishDoRun (q := {q with statement := some q.signature}) ?_ hpending hsuspended.pipelined ?_ hran
          fun hstarts => ?_
        · rw [hsame]
          exact hbusy
        · exact ⟨(fun hs => absurd hs (by simp [hsuspended.simple])), fun _ => hsuspended.pipelined,
            (fun hrun => absurd (Query.isRunning_false_of_isPending hpending) (by simp [show q.isRunning = true from hrun])),
            fun hrun => absurd (Query.isRunning_false_of_isPending hpending) (by simp [show q.isRunning = true from hrun])⟩
        · rw [starts_found hsuspended.simple] at hstarts
          rw [hsame]
          exact hoverlap hstarts
    | bind =>
      obtain ⟨s, hs, hstatus⟩ := hsuspended.statement
      rw [writes, hcalls] at hoverlap
      have hnone := hoverlap rfl
      have hexecute := (h.at_end hpending hsuspended.sound).execute hpending hsuspended.simple hs hstatus hnone
      exact hgood.add_started hbusy hnone hexecute rfl rfl rfl rfl fun t ht => ht

end
end Connection
end Funbun.Sql
