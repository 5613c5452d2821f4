import Funbun.Sql.RequestsSteps

/-! Every response of a MySQL connection goes to the request it answers, over whole runs. -/
namespace Funbun.Sql
open Library (Ahead forall_mem_replace)
variable {σ : Type}

namespace Connection
variable {c c' : Connection σ} {q q' : Query σ}

/-! ### `advance` -/

theorem discardCompleted_split (r : RequestQueue σ) :
    ∃ l, r.requests = l ++ r.discardCompleted.requests ∧ ∀ q ∈ l, q.isCompleted = true :=
  ⟨r.requests.takeWhile Query.isCompleted, List.takeWhile_append_dropWhile.symm,
    List.all_eq_true.mp (List.all_takeWhile)⟩

theorem Quiet.finishAdvance (h : c.Quiet) : c.finishAdvance.Quiet := by
  obtain ⟨l, hl, hended⟩ := discardCompleted_split c.queue
  intro hable hidle q hq
  refine h hable (fun p hp => ?_) q (hl ▸ List.mem_append_right l hq)
  rw [hl] at hp
  rcases List.mem_append.mp hp with hp | hp
  · obtain ⟨hpending, hrun⟩ := Query.of_isCompleted (hended p hp)
    refine ⟨hrun, ?_⟩
    rw [Query.isBeingPrepared, hpending]
    rfl
  · exact hidle p hp

/-- The end of `advance`. -/
theorem finishAdvance_good (hinv : Inv c.queue c.statements c.unanswered) (hcalls : c.calls = [])
    (henabled : c.disabled = false) : c.finishAdvance.Good := by
  obtain ⟨l, hl, hended⟩ := discardCompleted_split c.queue
  refine ⟨Inv.drop_completed (r := c.queue) ?_ hended, trivial, fun call hcall => ?_, henabled⟩
  · show Inv {c.queue with requests := l ++ c.queue.discardCompleted.requests} _ _
    rw [← hl]
    exact hinv
  · rw [show c.finishAdvance.calls = c.calls from rfl, hcalls] at hcall
    cases hcall

theorem Quiet.of_running (hq : q ∈ c.queue.requests) (h : q.isRunning = true) : c.Quiet := by
  intro _ hidle
  rw [(hidle q hq).1] at h
  cases h

theorem Quiet.of_prepared (hq : q ∈ c.queue.requests) (h : q.isBeingPrepared c.statements = true) : c.Quiet := by
  intro _ hidle
  rw [(hidle q hq).2] at h
  cases h

/-- A request that could not be written has something under way, or the connection cannot write. -/
theorem Quiet.of_blocked (hinv : Inv c.queue c.statements c.unanswered) (henabled : c.disabled = false)
    (hq : q ∈ c.queue.requests) (h : c.Blocked q) : c.Quiet := by
  intro hable hidle
  obtain ⟨hready, hwait, hpip, hnon⟩ := hinv.flags (fun p hp => (hidle p hp).1) fun p hp => (hidle p hp).2
  rcases h with h | h | h | h
  · rw [canExecuteQuery_iff.mpr ⟨hable, hready, hnon, hpip⟩] at h
    cases h
  · rw [canPipeline_iff.mpr ⟨henabled, hready, hnon, hwait, hable⟩] at h
    cases h
  · rw [canPrepareQuery_iff.mpr ⟨hable, hready, hwait, hpip⟩] at h
    cases h
  · rw [(hidle q hq).2] at h
    cases h

/-- Whether `advance` is under way. -/
def advancing (c : Connection σ) : Bool :=
  match c.task with
  | .advance _ | .script _ _ => true
  | _ => false

/-- What the loop of `advance` leaves: if it has ended, nothing is left pending that could be written. -/
structure Advanced (c : Connection σ) : Prop where
  good : c.Good
  quiet : c.advancing = false → c.Quiet

theorem Advanced.finishAdvance (hinv : Inv c.queue c.statements c.unanswered) (hcalls : c.calls = [])
    (henabled : c.disabled = false) (hquiet : c.Quiet) : c.finishAdvance.Advanced :=
  ⟨finishAdvance_good hinv hcalls henabled, fun _ => hquiet.finishAdvance⟩

theorem good_of_no_calls (hinv : Inv c.queue c.statements c.unanswered) (htask : c.TaskInv) (hcalls : c.calls = [])
    (henabled : c.disabled = false) : c.Good := by
  refine ⟨hinv, htask, fun call hcall => ?_, henabled⟩
  rw [hcalls] at hcall
  cases hcall

theorem set_length (l₁ l₂ : List (Query σ)) (q₀ q : Query σ) :
    (l₁ ++ q₀ :: l₂).set l₁.length q = l₁ ++ q :: l₂ := by
  simp

section
variable {l₁ l₂ : List (Query σ)} {q₀ : Query σ} {r : Connection σ × Query σ × Outcome}

variable {offset : Nat}

theorem afterRun_ok_of_not_running (h : q.isRunning = false) :
    afterRun offset (c, q, .ok) = finishAdvance {c.setRequest offset q with
      queue := (c.setRequest offset q).queue.started c.statements q} := by
  show (if _ then _ else _) = _
  rw [h, Bool.and_false, Bool.false_and, Bool.false_and, if_neg (by decide)]

/-- The loop ends behind a request that was written: no more is written before it is answered. -/
theorem afterRun_ok_of_running (h : q.isRunning = true) :
    afterRun offset (c, q, .ok) = finishAdvance {c.setRequest offset q with
      queue := (c.setRequest offset q).queue.started c.statements q} := by
  have hcan : Connection.canPipeline {c.setRequest offset q with
      queue := (c.setRequest offset q).queue.started c.statements q} = false := by
    by_contra hcan
    have hready := (canPipeline_iff.mp (by simpa using hcan)).2.1
    rw [RequestQueue.started_of_isRunning h, RequestQueue.count_ready] at hready
    cases hready
  show (if _ then _ else _) = _
  rw [hcan, Bool.and_false, if_neg (by decide)]

theorem advanced_started (hset : c'.queue.requests.set l₁.length q = l₁ ++ q :: l₂) (hrun : q.isRunning = true)
    (hinv : Inv ({c'.queue with requests := l₁ ++ q :: l₂}.started c'.statements q) c'.statements c'.unanswered)
    (hcalls : c'.calls = []) (henabled : c'.disabled = false) : (afterRun l₁.length (c', q, .ok)).Advanced := by
  rw [afterRun_ok_of_running hrun]
  refine Advanced.finishAdvance ?_ hcalls henabled (Quiet.of_running (q := q) ?_ hrun)
  · show Inv ({c'.queue with requests := c'.queue.requests.set l₁.length q}.started c'.statements q) _ _
    rw [hset]
    exact hinv
  · show q ∈ ({c'.queue with requests := c'.queue.requests.set l₁.length q}.started c'.statements q).requests
    rw [RequestQueue.started_requests, hset]
    simp

/-- The loop goes on behind a request that has failed. -/
theorem advanced_fails (hl : c.queue.requests = l₁ ++ q₀ :: l₂) (hat : c.At l₁ {q with status := .fail} l₂)
    (hcalls : c.calls = []) (henabled : c.disabled = false)
    (hplaced : c.queue.isReadyForQuery = true → ∀ x ∈ l₁, x.isPending = false)
    (hbehind : ∀ x ∈ l₂, x.isRunning = false)
    (halone : l₁ = [] → l₂ = []) : (afterRun l₁.length (c, {q with status := .fail}, .err)).Advanced := by
  by_cases hnil : l₁ = []
  · subst hnil
    rw [halone rfl] at hl hat
    refine ⟨good_of_no_calls ?_ ⟨hcalls, ?_⟩ hcalls henabled, fun h => by cases h⟩
    · have hnil : Inv {c.queue with requests := []} c.statements c.unanswered := by
        have hfront : Inv {c.queue with requests := [{q with status := .fail}] ++ []} c.statements c.unanswered := hat
        refine hfront.drop_completed fun x hx => ?_
        rw [List.mem_singleton] at hx
        subst hx
        rfl
      show Inv {c.queue with requests := c.queue.requests.drop 1} _ _
      rw [hl]
      exact hnil
    · intro _
      show (_ ∨ (c.queue.requests.drop 1).countP Query.isRunning ≤ 1) ∧
        ∀ x ∈ (c.queue.requests.drop 1).take 1, x.isPending = false
      rw [hl]
      exact ⟨Or.inr (Nat.zero_le 1), fun x hx => by cases hx⟩
  · have hoffset : l₁.length ≠ 0 := fun hlength => hnil (List.length_eq_zero_iff.mp hlength)
    have hset : c.queue.requests.set l₁.length {q with status := .fail} = l₁ ++ {q with status := .fail} :: l₂ := by
      rw [hl, set_length]
    show Advanced (if l₁.length = 0 then _ else _)
    rw [if_neg hoffset]
    refine ⟨good_of_no_calls ?_ ⟨hcalls, ?_⟩ hcalls henabled, fun h => by cases h⟩
    · show Inv {c.queue with requests := c.queue.requests.set l₁.length {q with status := .fail}} _ _
      rw [hset]
      exact hat
    · intro hready
      show (_ ∨ (c.queue.requests.set l₁.length {q with status := .fail}).countP Query.isRunning ≤ _) ∧
        ∀ x ∈ (c.queue.requests.set l₁.length {q with status := .fail}).take (l₁.length + 1), x.isPending = false
      have hzero : l₂.countP Query.isRunning = 0 := List.countP_eq_zero.mpr fun x hx => by simp [hbehind x hx]
      rw [hset, List.take_length_add_append, List.countP_append, List.countP_cons, hzero]
      refine ⟨Or.inr (Nat.le_succ_of_le (by simpa [Query.isRunning] using List.countP_le_length)), fun x hx => ?_⟩
      rcases List.mem_append.mp hx with hx | hx
      · exact hplaced hready x hx
      · rw [List.take_succ_cons, List.take_zero, List.mem_singleton] at hx
        subst hx
        rfl

/-- The loop goes on behind a request that has been run. -/
theorem advanced_afterRun [DecidableEq σ] (hl : c.queue.requests = l₁ ++ q₀ :: l₂) (hat : c.At l₁ q l₂) (hcalls : c.calls = [])
    (henabled : c.disabled = false) (hq : q.isPending = true)
    (hplaced : c.queue.isReadyForQuery = true → ∀ x ∈ l₁, x.isPending = false) (hran : Ran c q r)
    (halone : r.2.2 = .err → l₁ = [] → l₂ = []) : (afterRun l₁.length r).Advanced := by
  obtain ⟨c', q', out⟩ := r
  have hqrun : q.isRunning = false := Query.isRunning_false_of_isPending hq
  have hset : ∀ p, (c.queue.requests.set l₁.length p) = l₁ ++ p :: l₂ := by
    intro p
    rw [hl, set_length]
  have hstarts : c.starts q = true → ∀ x ∈ l₁, x.isPending = false := by
    intro hs
    apply hplaced
    rw [starts] at hs
    split at hs
    · exact (canExecuteQuery_iff.mp hs).2.1
    · obtain ⟨s, _, hs⟩ := (Option.any_eq_true _ _).mp hs
      unfold startsStatement at hs
      split at hs
      · exact (canPrepareQuery_iff.mp hs).2.1
      · exact (canPrepareQuery_iff.mp hs).2.1
      · cases hs
  have hscript : ∀ point : Point, c.Suspended point q → (point = .bind → c.queue.isReadyForQuery = true) →
      (afterRun l₁.length (c, q, .script point)).Advanced := by
    intro point hsuspended hbind
    refine ⟨good_of_no_calls ?_ ⟨q, ?_, hsuspended.mono fun s hs => hs, ?_, hbind⟩ hcalls henabled, fun h => by cases h⟩
    · show Inv {c.queue with requests := c.queue.requests.set l₁.length q} _ _
      rw [hset]
      exact hat
    · show (c.queue.requests.set l₁.length q)[l₁.length]? = some q
      rw [hset]
      simp
    · intro hready
      show (_ ∨ (c.queue.requests.set l₁.length q).countP Query.isRunning ≤ l₁.length) ∧
        ∀ x ∈ (c.queue.requests.set l₁.length q).take l₁.length, x.isPending = false
      have hbehind : l₂.countP Query.isRunning = 0 :=
        List.countP_eq_zero.mpr fun x hx => by simp [Inv.order hat |>.none_behind hq x hx]
      rw [hset, List.take_left, List.countP_append, List.countP_cons, hqrun, hbehind]
      exact ⟨Or.inr (by simpa using List.countP_le_length), hplaced hready⟩
  have hok := fun (hran : Ran c q (c', q', .ok)) => hran.ok hat hq hstarts
  cases hran with
  | waits hblocked =>
    have hinv := hok (.waits hblocked)
    rw [afterRun_ok_of_not_running hqrun]
    refine Advanced.finishAdvance ?_ hcalls henabled ?_
    · show Inv ({c.queue with requests := c.queue.requests.set l₁.length q}.started c.statements q) _ _
      rw [hset]
      exact hinv
    · cases hprepared : q.isBeingPrepared c.statements with
      | true =>
        refine Quiet.of_prepared (q := q) ?_ hprepared
        show q ∈ ({c.queue with requests := c.queue.requests.set l₁.length q}.started c.statements q).requests
        rw [RequestQueue.started_requests, hset]
        simp
      | false =>
        rw [RequestQueue.started_of_waiting hprepared hqrun] at hinv ⊢
        refine Quiet.of_blocked (q := q) ?_ henabled ?_ hblocked
        · show Inv {c.queue with requests := c.queue.requests.set l₁.length q} _ _
          rw [hset]
          exact hinv
        · show q ∈ c.queue.requests.set l₁.length q
          rw [hset]
          simp
  | query hsimple hcan => exact advanced_started (hset _) rfl (hok (.query hsimple hcan)) hcalls henabled
  | signature hsimple hnone => exact hscript .signature ⟨hq, hsimple, hat.sound.pending hq, hnone⟩ fun h => by cases h
  | @bind s hsimple hs hstatus hcan =>
    exact hscript .bind ⟨hq, hsimple, hat.sound.pending hq, s, hs, hstatus⟩ fun _ => (canPipeline_iff.mp hcan).2.1
  | @prepare s hsimple hs hstatus hcan =>
    rw [afterRun_ok_of_not_running hqrun]
    refine Advanced.finishAdvance ?_ hcalls henabled (Quiet.of_prepared (q := q) ?_ ?_)
    · show Inv ({c.queue with requests := c.queue.requests.set l₁.length q}.started _ q) _ _
      rw [hset]
      exact hok (.prepare hsimple hs hstatus hcan)
    · show q ∈ ({c.queue with requests := c.queue.requests.set l₁.length q}.started _ q).requests
      rw [RequestQueue.started_requests, hset]
      simp
    · refine Query.isBeingPrepared_iff.mpr ⟨hq, s, hs, ?_⟩
      show (c.statements.set s (.parsing false)).parsing s = true
      rw [Statements.parsing_set, if_pos rfl]
      rfl
  | @fails s hs hstatus =>
    have hnot : q.isBeingPrepared c.statements = false := by
      by_contra hnot
      obtain ⟨_, t, ht, hparsing⟩ := Query.isBeingPrepared_iff.mp (by simpa using hnot)
      rw [hs] at ht
      cases ht
      rw [Statements.not_parsing hstatus rfl] at hparsing
      cases hparsing
    exact advanced_fails hl (hat.fails hq hnot) hcalls henabled hplaced (Inv.order hat |>.none_behind hq) (halone rfl)

/-- A place in a list. -/
theorem exists_split {l : List (Query σ)} (h : l[offset]? = some q) :
    ∃ l₁ l₂, l = l₁ ++ q :: l₂ ∧ l₁.length = offset := by
  obtain ⟨hlt, hget⟩ := List.getElem?_eq_some_iff.mp h
  refine ⟨l.take offset, l.drop (offset + 1), ?_, List.length_take_of_le (Nat.le_of_lt hlt)⟩
  rw [← hget, List.getElem_cons_drop, List.take_append_drop]

theorem at_of_split (h : c.Good) (hl : c.queue.requests = l₁ ++ q :: l₂) : c.At l₁ q l₂ := by
  have hinv := h.inv
  show Inv {c.queue with requests := l₁ ++ q :: l₂} _ _
  rw [← hl]
  exact hinv

/-- The script of a request that `advance` runs has returned. -/
theorem advanced_resume [DecidableEq σ] (h : c.Good) {point : Point} (htask : c.task = .script offset point)
    (hcalls : c.calls = []) (hq : c.queue.requests[offset]? = some q) {ok : Bool} (hfine : c.Fine (.resume ok)) :
    (afterRun offset (c.resumeRun q point ok)).Advanced := by
  have htaskinv := h.task
  rw [TaskInv, htask] at htaskinv
  obtain ⟨p, hp, hsuspended, hplaced, hbind⟩ := htaskinv
  rw [hq] at hp
  injection hp with hp
  subst hp
  obtain ⟨l₁, l₂, hl, rfl⟩ := exists_split hq
  have hat := at_of_split h hl
  have hpending := hsuspended.pending
  have hbefore : c.queue.isReadyForQuery = true → ∀ x ∈ l₁, x.isPending = false := by
    intro hready
    have hall := (hplaced hready).2
    rw [hl, List.take_left] at hall
    exact hall
  have halone : c.failsAtFront (.resume ok) = true → l₂ = [] := by
    intro hfails
    have hlength := hfine.skips hfails
    rw [hl, List.length_append, List.length_cons] at hlength
    exact List.length_eq_zero_iff.mp (by omega)
  have hfront : l₁ = [] → c.failsAtFront (.resume ok) =
      (!ok || point == .signature && c.statements q.signature == some .failed) := by
    intro hnil
    subst hnil
    rw [failsAtFront, hcalls, htask, hl]
    rfl
  cases ok with
  | false =>
    show (afterRun l₁.length (c, q.fail.1, .err)).Advanced
    rw [Query.fail_of_isPending hpending]
    exact advanced_fails hl (hat.fails hpending hsuspended.not_prepared) hcalls h.enabled hbefore
      (Inv.order hat |>.none_behind hpending) fun hnil => halone (hfront hnil)
  | true =>
    cases point with
    | signature =>
      show (afterRun l₁.length (guarded (c.lookUp q))).Advanced
      rcases lookUp_cases hpending hsuspended.simple with ⟨hfailed, heq⟩ | ⟨hfailed, hran⟩
      · rw [heq]
        refine advanced_fails hl (hat.fails hpending hsuspended.not_prepared) hcalls h.enabled hbefore
          (Inv.order hat |>.none_behind hpending) fun hnil => halone ((hfront hnil).trans ?_)
        rw [hfailed]
        rfl
      · have hwith := found_with c q.signature
        have hfound := h.found q.signature
        have hsound : ({q with statement := some q.signature} : Query σ).Sound (c.found q.signature).statements :=
          ⟨(fun hs => absurd hs (by simp [hsuspended.simple])), fun _ => hsuspended.pipelined,
            (fun hrun => absurd (Query.isRunning_false_of_isPending hpending) (by simp [show q.isRunning = true from hrun])),
            fun hrun => absurd (Query.isRunning_false_of_isPending hpending) (by simp [show q.isRunning = true from hrun])⟩
        have hl' : (c.found q.signature).queue.requests = l₁ ++ q :: l₂ := by rw [hwith, ← hl]
        have hnot : q.isBeingPrepared (c.found q.signature).statements = false := by
          have hnone : q.statement = none := hsuspended.statement
          rw [Query.isBeingPrepared, hnone, Option.any_none, Bool.and_false]
        refine advanced_afterRun (q := {q with statement := some q.signature}) hl'
          (Inv.replace (at_of_split hfound hl') hpending hnot (Query.isRunning_false_of_isPending hpending) hsound)
          (by rw [hwith]; exact hcalls) (by rw [hwith]; exact h.enabled) hpending (by rw [hwith]; exact hbefore) hran
          fun herr => absurd herr (hran.ne_err fun s hs hstatus => ?_)
        cases hs
        rcases found_eq (c := c) (s := q.signature) with heq | ⟨_, heq⟩
        · rw [heq] at hstatus
          exact hfailed hstatus
        · rw [heq] at hstatus
          have hset : c.statements.set q.signature .pending q.signature = some .failed := hstatus
          rw [Statements.set, if_pos rfl] at hset
          cases hset
    | bind =>
      obtain ⟨s, hs, hstatus⟩ := hsuspended.statement
      have hset : (c.write (.execute q.id)).queue.requests.set l₁.length {q with status := .running, pipelined := true} =
          l₁ ++ {q with status := .running, pipelined := true} :: l₂ := by
        show c.queue.requests.set _ _ = _
        rw [hl, set_length]
      exact advanced_started hset rfl (hat.execute hpending hsuspended.simple hs hstatus (hbefore (hbind rfl))) hcalls h.enabled

/-! ### A turn of the loop of `advance` -/

theorem placed_of_task (h : c.Good) (htask : c.task = .advance offset) : c.calls = [] ∧ Placed c.queue offset := by
  have htaskinv := h.task
  rw [TaskInv, htask] at htaskinv
  exact htaskinv

theorem not_pending_before (hl : c.queue.requests = l₁ ++ q :: l₂) (hplaced : Placed c.queue l₁.length)
    (hready : c.queue.isReadyForQuery = true) : ∀ x ∈ l₁, x.isPending = false := by
  have hall := (hplaced hready).2
  rw [hl, List.take_left] at hall
  exact hall

/-- On to the next request -/
theorem advanced_next (h : c.Good) (hl : c.queue.requests = l₁ ++ q :: l₂) (htask : c.task = .advance l₁.length)
    (hpending : q.isPending = false)
    (htotal : c.queue.isReadyForQuery = true → c.queue.requests.countP Query.isRunning ≤ l₁.length) :
    ({c with task := .advance (l₁.length + 1)} : Connection σ).Advanced := by
  obtain ⟨hcalls, hplaced⟩ := placed_of_task h htask
  have htake : c.queue.requests.take (l₁.length + 1) = l₁ ++ [q] := by
    rw [hl, List.take_length_add_append]
    rfl
  refine ⟨good_of_no_calls h.inv ⟨hcalls, fun hready => ⟨Or.inr (Nat.le_succ_of_le (htotal hready)), ?_⟩⟩ hcalls h.enabled,
    fun h => by cases h⟩
  show ∀ x ∈ c.queue.requests.take (l₁.length + 1), x.isPending = false
  rw [htake]
  intro x hx
  rcases List.mem_append.mp hx with hx | hx
  · exact not_pending_before hl hplaced hready x hx
  · rw [List.mem_singleton] at hx
    exact hx ▸ hpending

/-- A request at the front that has ended is dropped. -/
theorem advanced_drop (h : c.Good) (hl : c.queue.requests = q :: l₂) (htask : c.task = .advance 0)
    (hended : q.isCompleted = true) : ({c with queue.requests := c.queue.requests.drop 1} : Connection σ).Advanced := by
  obtain ⟨hcalls, -⟩ := placed_of_task h htask
  refine ⟨good_of_no_calls ?_ ?_ hcalls h.enabled, fun hidle => ?_⟩
  · show Inv {c.queue with requests := c.queue.requests.drop 1} _ _
    rw [hl]
    have hfront : Inv {c.queue with requests := [q] ++ l₂} c.statements c.unanswered :=
      (at_of_split h hl : c.At [] q l₂)
    refine hfront.drop_completed fun x hx => ?_
    rw [List.mem_singleton] at hx
    exact hx ▸ hended
  · have hturned : ({c with queue.requests := c.queue.requests.drop 1} : Connection σ).task = .advance 0 := htask
    rw [TaskInv, hturned]
    exact ⟨hcalls, fun _ => ⟨Or.inl rfl, fun x hx => by cases hx⟩⟩
  · have hbusy : c.advancing = false := hidle
    rw [advancing, htask] at hbusy
    cases hbusy

/-- The loop ends at a request that is being prepared. -/
theorem advanced_wait (h : c.Good) (hcalls : c.calls = []) (hq : q ∈ c.queue.requests)
    (hprepared : q.isBeingPrepared c.statements = true) :
    ({c with queue.waitingToPrepare := true} : Connection σ).finishAdvance.Advanced := by
  obtain ⟨_, s, _, hs⟩ := Query.isBeingPrepared_iff.mp hprepared
  have hready := (h.inv.preparing s hs).1
  have hwait : {c.queue with waitingToPrepare := true} =
      {c.queue with isReadyForQuery := false, waitingToPrepare := true} := by rw [← hready]
  refine Advanced.finishAdvance ?_ hcalls h.enabled (Quiet.of_prepared hq hprepared)
  show Inv {c.queue with waitingToPrepare := true} _ _
  rw [hwait]
  exact h.inv.wait hs

/-- A running request is passed, with all that run if the loop has not gone on from the front yet. -/
theorem advanced_pass (h : c.Good) (hl : c.queue.requests = l₁ ++ q :: l₂) (htask : c.task = .advance l₁.length)
    (hrun : q.isRunning = true) :
    let total := (c.queue.pipelinedRequests + c.queue.nonpipelinableRequests).toNat
    let next := if l₁.length < total then l₁.length + total else l₁.length + 1
    ({c with task := .advance next} : Connection σ).Advanced := by
  obtain ⟨hcalls, hplaced⟩ := placed_of_task h htask
  simp only
  rw [h.inv.total]
  split
  · rename_i hlt
    refine ⟨good_of_no_calls h.inv ⟨hcalls, fun hready => ?_⟩ hcalls h.enabled, fun h => by cases h⟩
    have hzero : l₁.length = 0 := (hplaced hready).1.resolve_right (Nat.not_le_of_gt hlt)
    rw [hzero, Nat.zero_add]
    exact ⟨Or.inr (Nat.le_refl _),
      h.inv.order.take_countP (fun x => Query.isPending_false_of_isRunning) (Nat.le_refl _)⟩
  · rename_i hlt
    exact advanced_next h hl htask (Query.isPending_false_of_isRunning hrun) fun _ => Nat.le_of_not_lt hlt

/-- A request that is pending is run. -/
theorem advanced_run [DecidableEq σ] (h : c.Good) (hl : c.queue.requests = l₁ ++ q :: l₂)
    (htask : c.task = .advance l₁.length) (hfine : c.Fine .tick) (hable : c.isAbleToWrite = true)
    (hpending : q.isPending = true) (hnot : q.isBeingPrepared c.statements = false) :
    (afterRun l₁.length (c.run q)).Advanced := by
  obtain ⟨hcalls, hplaced⟩ := placed_of_task h htask
  have hat := at_of_split h hl
  refine advanced_afterRun hl hat hcalls h.enabled hpending (not_pending_before hl hplaced) (ran hpending hnot) fun herr hnil => ?_
  subst hnil
  -- a request whose statement failed is alone in the queue
  obtain ⟨s, hs, hstatus⟩ := (ran hpending hnot).failed herr
  have hsimple : q.simple = false := by
    by_contra hsimple
    rw [hat.sound.simple (by simpa using hsimple)] at hs
    cases hs
  have htask' : c.task = .advance 0 := htask
  have hfails : c.failsAtFront .tick = true := by
    rw [failsAtFront, htask', hl]
    show (c.isAbleToWrite && q.isPending && !q.simple && q.statement.any _) = true
    rw [hable, hpending, hsimple, hs]
    simp [hstatus]
  have hlength := hfine.skips hfails
  rw [hl, List.nil_append, List.length_cons] at hlength
  exact List.length_eq_zero_iff.mp (by omega)

theorem advanced_turn [DecidableEq σ] (h : c.Good) (htask : c.task = .advance offset)
    (hfine : c.Fine .tick) : (c.turn offset).Advanced := by
  obtain ⟨hcalls, hplaced⟩ := placed_of_task h htask
  unfold turn
  cases hable : c.isAbleToWrite with
  | false =>
    refine Advanced.finishAdvance h.inv hcalls h.enabled fun hcan => ?_
    rw [hable] at hcan
    cases hcan
  | true =>
    cases hq : c.queue.requests[offset]? with
    | none =>
      refine Advanced.finishAdvance h.inv hcalls h.enabled fun _ hidle => ?_
      obtain ⟨hready, _⟩ := h.inv.flags (fun p hp => (hidle p hp).1) fun p hp => (hidle p hp).2
      have hall := (hplaced hready).2
      rw [List.take_of_length_le (List.getElem?_eq_none_iff.mp hq)] at hall
      exact hall
    | some q =>
      obtain ⟨l₁, l₂, hl, rfl⟩ := exists_split hq
      simp only
      split
      · rename_i hended
        split
        · rename_i hoffset
          exact advanced_next h hl htask (Query.of_isCompleted hended).1 fun hready =>
            (hplaced hready).1.resolve_left (Nat.ne_of_gt hoffset)
        · rename_i hoffset
          obtain rfl : l₁ = [] := List.length_eq_zero_iff.mp (Nat.eq_zero_of_not_pos hoffset)
          exact advanced_drop h hl htask hended
      · rename_i hended
        split
        · rename_i hprepared
          exact advanced_wait h hcalls (List.mem_of_getElem? hq) hprepared
        · rename_i hprepared
          split
          · rename_i hrun
            exact advanced_pass h hl htask hrun
          · rename_i hrun
            exact advanced_run h hl htask hfine hable (Query.isPending_of (by simpa using hrun) (by simpa using hended))
              (by simpa using hprepared)

/-! ### Packets -/

/-- The request at the front is the one whose command the next packet answers. -/
theorem current {r : RequestQueue σ} {statements : Statements σ} {command : Command σ} {rest : List (Command σ)}
    (h : Inv r statements (command :: rest)) :
    ∃ q l, r.requests = q :: l ∧ (q.isCompleted = false → q.awaits statements = some command) := by
  by_cases hparsing : ∀ s, statements.parsing s = false
  · have hanswers := h.answers hparsing
    cases hl : r.requests with
    | nil =>
      rw [hl] at hanswers
      cases hanswers
    | cons q l =>
      refine ⟨q, l, rfl, fun hended => ?_⟩
      cases hrun : q.isRunning with
      | true =>
        rw [hl, List.filter_cons_of_pos hrun, List.map_cons] at hanswers
        injection hanswers with hcmd _
        rw [Query.awaits, if_pos hrun, hcmd]
      | false =>
        have horder : Ahead Query.isRunning Query.isPending ([] ++ q :: l) := hl ▸ h.order
        have hnone := horder.none_behind (Query.isPending_of hrun hended)
        rw [hl, List.filter_eq_nil_iff.mpr] at hanswers
        · cases hanswers
        · exact List.forall_mem_cons.mpr ⟨by simp [hrun], fun x hx => by simp [hnone x hx]⟩
  · obtain ⟨s, hs⟩ := not_forall.mp hparsing
    have hs : statements.parsing s = true := by simpa using hs
    obtain ⟨_, hnone, ⟨p, hp, hps⟩, hcmd⟩ := h.preparing s hs
    cases hl : r.requests with
    | nil =>
      rw [hl] at hp
      cases hp
    | cons q l =>
      refine ⟨q, l, rfl, fun hended => ?_⟩
      have hrun := hnone q (by simp [hl])
      have hpending := Query.isPending_of hrun hended
      rw [hl, List.find?_cons_of_pos hpending] at hp
      injection hp with hp
      subst hp
      injection hcmd with hcmd _
      rw [Query.awaits, hrun, if_neg (by decide), Query.preparing,
        if_pos (Query.isBeingPrepared_iff.mpr ⟨hpending, s, hps, hs⟩), hps, hcmd]
      rfl

theorem markCurrentRequestAsFinished_running [DecidableEq σ] (h : q.isRunning = true) :
    c.markCurrentRequestAsFinished q = {c with queue := {c.queue with waitingToPrepare := false}.count q (-1)} := by
  have hprepared : q.isBeingPrepared c.statements = false := by
    rw [Query.isBeingPrepared, Query.isPending_false_of_isRunning h, Bool.false_and]
  unfold markCurrentRequestAsFinished
  simp only [hprepared, h]
  rfl

theorem resolve_true {next : Next} {rest : List (Query σ)} :
    c.resolve (q, true) rest next = {c with queue.requests := q :: rest, task := .callback next} := rfl

/-- A connection that waits in a callback is good if its queue is. -/
theorem good_callback {next : Next} (hinv : Inv c.queue c.statements c.unanswered) (hcalls : c.calls = [])
    (htask : c.task = .callback next) (henabled : c.disabled = false) : c.Good := by
  refine good_of_no_calls hinv ?_ hcalls henabled
  rw [TaskInv, htask]
  trivial

theorem count_with (q : Query σ) (n : Int) (r : RequestQueue σ) (l : List (Query σ)) :
    {r.count q n with requests := l} = {r with requests := l}.count q n := by
  unfold RequestQueue.count
  split <;> rfl

theorem sound_result {statements : Statements σ} (h : q.Sound statements) (hrun : q.isRunning = true) (last : Bool) :
    (q.result last).1.Sound statements := by
  rw [Query.result, Query.isCompleted_false_of_isRunning hrun, if_neg (by decide)]
  refine ⟨h.simple, fun hp => ?_, fun _ => h.running hrun, fun _ hsimple => h.prepared hrun hsimple⟩
  cases last <;> cases hp

section
variable [DecidableEq σ] {rest : List (Query σ)} {command : Command σ} {later : List (Command σ)} {packet : Packet}

/-- The last packet of a result, or an error. -/
theorem good_ended (h : c.Good) (hl : c.queue.requests = q :: rest) (hrun : q.isRunning = true) (hcalls : c.calls = [])
    (hended : q'.isCompleted = true) (hsound : q'.Sound c.statements) (later : List (Command σ))
    (hlater : c.unanswered.tail = later) :
    ((markCurrentRequestAsFinished {c with unanswered := later, queue.isReadyForQuery := true} q).resolve (q', true) rest
      .flush).Good := by
  rw [markCurrentRequestAsFinished_running hrun, resolve_true]
  refine good_callback ?_ hcalls rfl h.enabled
  show Inv {({c.queue with isReadyForQuery := true, waitingToPrepare := false}.count q (-1)) with requests := q' :: rest} _ later
  rw [count_with, ← hlater]
  refine Inv.finish (r := c.queue) ?_ hrun hended hsound
  rw [← hl]
  exact h.inv

/-- A packet of a result goes to the running request at the front. -/
theorem good_resultSet (h : c.Good) (hl : c.queue.requests = q :: rest) (hrun : q.isRunning = true) (hcalls : c.calls = [])
    (hun : c.unanswered = command :: later) (hrow : packet ≠ .badRow)
    (hstep : handleResultSet {c with unanswered := if packet.isLast then later else command :: later} q rest packet = some c') :
    c'.Good := by
  have hsound : q.Sound c.statements := h.inv.sound q (by simp [hl])
  have hnot := Query.isCompleted_false_of_isRunning hrun
  have hsame : ({c with unanswered := command :: later} : Connection σ) = c := by rw [← hun]
  have htail : c.unanswered.tail = later := by rw [hun, List.tail_cons]
  cases packet with
  | definition described => cases hstep
  | prepared => cases hstep
  | badRow => exact absurd rfl hrow
  | err =>
    injection hstep with hstep
    subst hstep
    have hfail : q.fail = ({q with status := .fail}, true) := by rw [Query.fail, hnot, if_neg (by decide)]
    rw [hfail]
    exact good_ended h hl hrun hcalls rfl hsound.fails later htail
  | part =>
    simp only [handleResultSet] at hstep
    split at hstep
    · injection hstep with hstep
      subst hstep
      show Good {c with unanswered := command :: later}
      rw [hsame]
      exact h
    · cases hstep
  | more =>
    simp only [handleResultSet] at hstep
    split at hstep
    · injection hstep with hstep
      subst hstep
      have hresult : q.result false = ({q with status := .partialResponse}, true) := by
        rw [Query.result, hnot, if_neg (by decide)]
        rfl
      have hsound' := sound_result hsound hrun false
      rw [hresult] at hsound' ⊢
      show (resolve {c with unanswered := command :: later} _ rest .flush).Good
      rw [hsame, resolve_true]
      refine good_callback ?_ hcalls rfl h.enabled
      refine Inv.more (r := c.queue) (q := q) ?_ hrun rfl rfl rfl hsound'
      rw [← hl]
      exact h.inv
    · cases hstep
  | done =>
    simp only [handleResultSet] at hstep
    split at hstep
    · injection hstep with hstep
      subst hstep
      have hresult : q.result true = ({q with status := .success}, true) := by
        rw [Query.result, hnot, if_neg (by decide)]
        rfl
      have hsound' := sound_result hsound hrun true
      rw [hresult] at hsound' ⊢
      exact good_ended h hl hrun hcalls rfl hsound' later htail
    · cases hstep

/-- A packet of a prepare goes to the first request that is being prepared. -/
theorem good_preparedStatement (h : c.Good) (hl : c.queue.requests = q :: rest) (hpending : q.isPending = true)
    (hcalls : c.calls = []) {s : σ} (hs : q.statement = some s)
    (hparsing : c.statements.parsing s = true) (hun : c.unanswered = command :: later)
    (hstep : handlePreparedStatement {c with unanswered := if packet.isLast then later else command :: later} q rest s
      packet = some c') : c'.Good := by
  have hsound : q.Sound c.statements := h.inv.sound q (by simp [hl])
  have hsame : ({c with unanswered := command :: later} : Connection σ) = c := by rw [← hun]
  have htail : c.unanswered.tail = later := by rw [hun, List.tail_cons]
  cases packet with
  | part => cases hstep
  | badRow => cases hstep
  | more => cases hstep
  | done => cases hstep
  | definition described =>
    injection hstep with hstep
    subst hstep
    show Good {c with unanswered := command :: later, statements := c.statements.set s (.parsing described)}
    rw [← hun]
    refine h.congr_statements (fun t => ?_) fun t ht => set_prepared (fun hprepared => ?_) ht
    · rw [Statements.parsing_set]
      split
      · rename_i hts
        rw [hts, hparsing]
        rfl
      · rfl
    · rw [Statements.not_parsing hprepared rfl] at hparsing
      cases hparsing
  | prepared =>
    injection hstep with hstep
    subst hstep
    have hset : c.statements.set s .prepared s = some .prepared := by rw [Statements.set, if_pos rfl]
    have hmark : q.markAsPrepared (c.statements.set s .prepared) = c.statements.set s .prepared := by
      rw [Query.markAsPrepared, hpending, hs]
      show (if _ then _ else _) = _
      rw [hset, if_neg (fun h => by cases h)]
    refine good_of_no_calls ?_ ?_ hcalls h.enabled
    · show Inv {c.queue with isReadyForQuery := true, waitingToPrepare := false} (q.markAsPrepared _) later
      rw [hmark, ← htail]
      exact h.inv.settle hparsing rfl
    · exact ⟨hcalls, fun _ => ⟨Or.inl rfl, fun x hx => by cases hx⟩⟩
  | err =>
    injection hstep with hstep
    subst hstep
    have hset : c.statements.set s .failed s = some .failed := by rw [Statements.set, if_pos rfl]
    have hnot : q.isBeingPrepared (c.statements.set s .failed) = false := by
      rw [Query.isBeingPrepared, hpending, hs]
      show (true && (c.statements.set s .failed).parsing s) = false
      rw [Statements.not_parsing hset rfl]
      rfl
    have hrun := Query.isRunning_false_of_isPending hpending
    have hsettled : Inv _ (c.statements.set s .failed) _ := h.inv.settle hparsing rfl
    have hat : Inv {c.queue with requests := [] ++ q :: rest, isReadyForQuery := true, waitingToPrepare := false}
        (c.statements.set s .failed) later := by
      rw [← htail, List.nil_append, ← hl]
      exact hsettled
    have hsound' : q.Sound (c.statements.set s .failed) :=
      ⟨hsound.simple, hsound.pending, hsound.running, fun hx => absurd hx (by simp [hrun])⟩
    have hmark (c₁ : Connection σ) (hc₁ : q.isBeingPrepared c₁.statements = false) :
        c₁.markCurrentRequestAsFinished q = {c₁ with queue.waitingToPrepare := false} := by
      unfold markCurrentRequestAsFinished
      simp only [hc₁, hrun]
      rfl
    rw [hmark _ hnot, Query.fail_of_isPending hpending, resolve_true]
    exact good_callback (Inv.replace (r := {c.queue with isReadyForQuery := true, waitingToPrepare := false}) hat hpending
      hnot rfl hsound'.fails) hcalls rfl h.enabled

/-- A packet goes to the request it answers. -/
theorem good_packet (h : c.Good) (hcalls : c.calls = []) (hun : c.unanswered = command :: later)
    (hfine : c.Fine (.packet packet))
    (hstep : handleCommand {c with unanswered := if packet.isLast then later else command :: later} packet = some c') :
    c'.Good := by
  have hinv := h.inv
  rw [hun] at hinv
  obtain ⟨q, rest, hl, hawaits⟩ := current hinv
  have hended := hfine.current rfl q (by simp [hl])
  have hrow : packet ≠ .badRow := fun hrow => hfine.rows (hrow ▸ rfl)
  have hsound : q.Sound c.statements := h.inv.sound q (by simp [hl])
  have hcommand := hawaits hended
  unfold handleCommand at hstep
  rw [show ({c with unanswered := if packet.isLast then later else command :: later} : Connection σ).queue.requests =
    q :: rest from hl] at hstep
  simp only at hstep
  cases hrun : q.isRunning with
  | true =>
    split at hstep
    · exact good_resultSet h hl hrun hcalls hun hrow hstep
    · rename_i hsimple
      obtain ⟨s, hs, hstatus⟩ := hsound.prepared hrun (by simpa using hsimple)
      simp only [hs, hstatus] at hstep
      exact good_resultSet h hl hrun hcalls hun hrow hstep
  | false =>
    have hpending := Query.isPending_of hrun hended
    rw [Query.awaits, hrun, if_neg (by decide), Query.preparing] at hcommand
    split at hcommand
    · rename_i hprepared
      obtain ⟨_, s, hs, hparsing⟩ := Query.isBeingPrepared_iff.mp hprepared
      obtain ⟨described, hstatus⟩ := Statements.parsing_iff.mp hparsing
      have hsimple : q.simple = false := by
        by_contra hsimple
        rw [hsound.simple (by simpa using hsimple)] at hs
        cases hs
      simp only [hsimple, hs, hstatus] at hstep
      exact good_preparedStatement h hl hpending hcalls hs hparsing hun hstep
    · cases hcommand

end
end

/-! ### Runs -/

/-- While a call of `do_run` waits for script, native code does nothing else. -/
theorem Good.busy_of_call (h : c.Good) {call : Point × Query σ} {calls : List (Point × Query σ)}
    (hcalls : c.calls = call :: calls) : c.busy = false := by
  have htask := h.task
  rw [TaskInv] at htask
  rw [busy]
  cases hcase : c.task with
  | idle => rfl
  | callback next => rfl
  | script offset point => rfl
  | flush =>
    rw [hcase, hcalls] at htask
    cases htask
  | advance offset =>
    rw [hcase, hcalls] at htask
    cases htask.1

/-- What is done when a callback has returned. -/
theorem good_goOn (h : c.Good) (hcalls : c.calls = []) (next : Next) : (c.goOn next).Good := by
  cases next with
  | nothing => exact good_of_no_calls h.inv trivial hcalls h.enabled
  | flush => exact good_of_no_calls h.inv hcalls hcalls h.enabled
  | advance =>
    exact good_of_no_calls h.inv ⟨hcalls, fun _ => ⟨Or.inl rfl, fun x hx => by cases hx⟩⟩ hcalls h.enabled

theorem idle_of_isIdle (h : c.isIdle = true) : c.task = .idle ∧ c.calls = [] := by
  simpa [isIdle] using h

theorem good_init : (init false : Connection σ).Good := by
  refine good_of_no_calls ⟨List.Pairwise.nil, List.Pairwise.nil, fun q hq => absurd hq List.not_mem_nil, rfl, rfl,
    fun _ => rfl, (fun h => by cases h), (fun h => by cases h), fun _ => rfl, fun s hs => ?_⟩ trivial rfl rfl
  have hnone : (false : Bool) = true := hs
  cases hnone

section
variable [DecidableEq σ] {input : Input σ}

theorem task_of_ran {r : Connection σ × Query σ × Outcome} (h : Ran c q r) : (finishDoRun r).task = c.task := by
  cases h <;> rfl

theorem task_resumeCall {point : Point} {ok : Bool} (h : c.Suspended point q) :
    (finishDoRun (c.resumeRun q point ok)).task = c.task := by
  cases ok with
  | false => rfl
  | true =>
    cases point with
    | bind => rfl
    | signature =>
      show (finishDoRun (guarded (c.lookUp q))).task = c.task
      rcases lookUp_cases h.pending h.simple with ⟨_, heq⟩ | ⟨_, hran⟩
      · rw [heq]
        rfl
      · rw [task_of_ran hran, found_with]

/-- What a step leaves. -/
theorem good_step (h : c.Good) (hfine : c.Fine input) (hstep : c.step input = some c') :
    c'.Good ∧ (c.advancing = true → c'.advancing = false → c'.Quiet) := by
  have hsame : c'.Good → c'.task = c.task → c'.Good ∧ (c.advancing = true → c'.advancing = false → c'.Quiet) := by
    intro hgood htask
    refine ⟨hgood, fun hadvancing hended => ?_⟩
    rw [advancing, htask] at hended
    rw [advancing, hended] at hadvancing
    cases hadvancing
  have hadvanced : c'.Advanced → c'.Good ∧ (c.advancing = true → c'.advancing = false → c'.Quiet) :=
    fun hadvanced => ⟨hadvanced.good, fun _ => hadvanced.quiet⟩
  cases input with
  | socket hasBackpressure writeBufferFull =>
    injection hstep with hstep
    subst hstep
    refine hsame ⟨h.inv, h.task.congr rfl rfl (fun s hs => hs) fun _ => rfl, fun call hcall => ?_, h.enabled⟩ rfl
    exact (h.calls call hcall).mono fun s hs => hs
  | doRun simple signature =>
    simp only [step] at hstep
    split at hstep
    · cases hstep
    · rename_i hbusy
      injection hstep with hstep
      subst hstep
      refine hsame (h.doRun (by simpa using hbusy) hfine) ?_
      have hran : Ran {c with nextId := c.nextId + 1} (Query.init c.nextId simple signature) _ := ran rfl rfl
      have htask := task_of_ran hran
      exact htask
  | resume ok =>
    simp only [step] at hstep
    split at hstep
    · rename_i task point q calls hcalls
      injection hstep with hstep
      subst hstep
      have hbusy : c.busy = false := h.busy_of_call hcalls
      have hsuspended : c.Suspended point q := h.calls (point, q) (by simp [hcalls])
      exact hsame (h.resumeCall hbusy hcalls hfine)
        (task_resumeCall (c := {c with calls := calls}) (hsuspended.mono fun s hs => hs))
    · rename_i offset point hcalls htask
      obtain ⟨q, hq, hstep⟩ := Option.map_eq_some_iff.mp hstep
      exact hadvanced (hstep ▸ advanced_resume h htask hcalls hq hfine)
    · rename_i next hcalls htask
      injection hstep with hstep
      subst hstep
      refine ⟨good_goOn h hcalls next, fun hadvancing => ?_⟩
      rw [advancing, htask] at hadvancing
      cases hadvancing
    · cases hstep
  | tick =>
    simp only [step] at hstep
    split at hstep
    · rename_i htask
      injection hstep with hstep
      subst hstep
      have hcalls : c.calls = [] := by
        have htaskinv := h.task
        rw [TaskInv, htask] at htaskinv
        exact htaskinv
      have hgood : c.flushed.Good := by
        unfold flushed
        split
        · exact good_goOn h hcalls .nothing
        · exact good_goOn h hcalls .advance
      refine ⟨hgood, fun hadvancing => ?_⟩
      rw [advancing, htask] at hadvancing
      cases hadvancing
    · rename_i offset htask
      injection hstep with hstep
      exact hadvanced (hstep ▸ advanced_turn h htask hfine)
    · cases hstep
  | flushQueue =>
    simp only [step] at hstep
    split at hstep
    · rename_i hidle
      obtain ⟨htask, hcalls⟩ := idle_of_isIdle hidle
      injection hstep with hstep
      subst hstep
      refine ⟨good_of_no_calls h.inv hcalls hcalls h.enabled, fun hadvancing => ?_⟩
      rw [advancing, htask] at hadvancing
      cases hadvancing
    · cases hstep
  | advance =>
    simp only [step] at hstep
    split at hstep
    · rename_i hidle
      obtain ⟨htask, hcalls⟩ := idle_of_isIdle hidle
      injection hstep with hstep
      subst hstep
      refine ⟨good_of_no_calls h.inv ⟨hcalls, fun _ => ⟨Or.inl rfl, fun x hx => by cases hx⟩⟩ hcalls h.enabled,
        fun hadvancing => ?_⟩
      rw [advancing, htask] at hadvancing
      cases hadvancing
    · cases hstep
  | packet packet =>
    simp only [step] at hstep
    split at hstep
    · rename_i command later hidle hun
      obtain ⟨htask, hcalls⟩ := idle_of_isIdle hidle
      split at hstep
      · refine ⟨good_packet h hcalls hun hfine hstep, fun hadvancing => ?_⟩
        rw [advancing, htask] at hadvancing
        cases hadvancing
      · cases hstep
    · cases hstep

/-- The states that steps under the condition come to. -/
inductive Reached : Connection σ → Prop where
  | init : Reached (init false)
  | step {c c' : Connection σ} {input : Input σ} : Reached c → c.Fine input → c.step input = some c' → Reached c'

theorem Reached.good (h : c.Reached) : c.Good := by
  induction h with
  | init => exact good_init
  | step _ hfine hstep ih => exact (good_step ih hfine hstep).1

end

/-- The responses go to the requests they answer. -/
structure Delivered [DecidableEq σ] (c : Connection σ) : Prop where
  ordered : c.queue.requests.Pairwise fun a b => b.isRunning = true → a.isPending = false
  /-- The commands not answered are those of the running requests, and the prepare of those that are being
  prepared. -/
  unanswered : c.unanswered = (c.queue.requests.filter Query.isRunning).map Query.command ++
    ((c.queue.requests.filterMap (Query.preparing c.statements)).dedup.map .prepare)
  /-- Unless it has ended, the request at the front is the one the next packet answers. -/
  current : ∀ command rest, c.unanswered = command :: rest → ∃ q l, c.queue.requests = q :: l ∧
    (q.isCompleted = false → q.awaits c.statements = some command)
  pipelined : c.queue.pipelinedRequests = (c.queue.requests.countP fun q => q.isRunning && q.pipelined : Nat)
  nonpipelinable : c.queue.nonpipelinableRequests = (c.queue.requests.countP fun q => q.isRunning && !q.pipelined : Nat)

/-- The prepares under way are one at most. -/
theorem prepares_eq [DecidableEq σ] {r : RequestQueue σ} {statements : Statements σ} {unanswered : List (Command σ)}
    (h : Inv r statements unanswered) : unanswered = (r.requests.filter Query.isRunning).map Query.command ++
      ((r.requests.filterMap (Query.preparing statements)).dedup.map .prepare) := by
  by_cases hparsing : ∀ s, statements.parsing s = false
  · have hnil : r.requests.filterMap (Query.preparing statements) = [] := by
      rw [List.filterMap_eq_nil_iff]
      intro q _
      have hnot : ¬ q.isBeingPrepared statements = true := by
        rintro hprepared
        obtain ⟨_, s, _, hs⟩ := Query.isBeingPrepared_iff.mp hprepared
        rw [hparsing s] at hs
        cases hs
      rw [Query.preparing, if_neg hnot]
    rw [hnil, h.answers hparsing]
    simp
  · obtain ⟨s, hs⟩ := not_forall.mp hparsing
    have hs : statements.parsing s = true := by simpa using hs
    obtain ⟨_, hnone, ⟨p, hp, hps⟩, hcmd⟩ := h.preparing s hs
    have hmem : p ∈ r.requests := List.mem_of_find?_eq_some hp
    have hprepared : p.isBeingPrepared statements = true :=
      Query.isBeingPrepared_iff.mpr ⟨List.find?_some hp, s, hps, hs⟩
    have hin : s ∈ r.requests.filterMap (Query.preparing statements) :=
      List.mem_filterMap.mpr ⟨p, hmem, by rw [Query.preparing, if_pos hprepared, hps]⟩
    have hall : ∀ t ∈ r.requests.filterMap (Query.preparing statements), t = s := by
      intro t ht
      obtain ⟨q, _, hq⟩ := List.mem_filterMap.mp ht
      rw [Query.preparing] at hq
      split at hq
      · rename_i hprepared
        obtain ⟨_, u, hu, hparsing⟩ := Query.isBeingPrepared_iff.mp hprepared
        rw [hu] at hq
        injection hq with hq
        exact hq ▸ h.parsing_unique hparsing hs
      · cases hq
    rw [List.eq_replicate_of_mem hall, List.replicate_dedup (fun hzero => ?_), hcmd,
      List.filter_eq_nil_iff.mpr fun q hq => by simp [hnone q hq]]
    · rfl
    · rw [List.length_eq_zero_iff] at hzero
      rw [hzero] at hin
      cases hin

theorem Good.delivered [DecidableEq σ] (h : c.Good) : c.Delivered :=
  ⟨h.inv.order, prepares_eq h.inv, fun _ _ hun => current (hun ▸ h.inv), h.inv.pipelined, h.inv.nonpipelinable⟩

/-- In every state that is reached under the condition the responses go to the requests they answer,
and when `advance` returns nothing is left pending that could be written. -/
theorem responses_delivered [DecidableEq σ] (h : c.Reached) :
    c.Delivered ∧ ∀ input c', c.Fine input → c.step input = some c' → c.advancing = true → c'.advancing = false →
      c'.Quiet :=
  ⟨h.good.delivered, fun _ _ hfine hstep => (good_step h.good hfine hstep).2⟩

/-- Two requests are issued at once, and the first one's result comes. -/
def twoRequests : List (Input Nat) := [.doRun true 0, .doRun true 1, .packet .done]

/-- The connection after some steps, if all are under the condition. -/
def runFine [DecidableEq σ] (c : Connection σ) : List (Input σ) → Option (Connection σ)
  | [] => some c
  | input :: inputs => if c.Fine input then (c.step input).bind fun c => runFine c inputs else none

theorem Reached.runFine [DecidableEq σ] {inputs : List (Input σ)} (h : c.Reached) (hrun : c.runFine inputs = some c') :
    c'.Reached := by
  induction inputs generalizing c with
  | nil =>
    injection hrun with hrun
    exact hrun ▸ h
  | cons input inputs ih =>
    rw [Connection.runFine] at hrun
    split at hrun
    · rename_i hfine
      obtain ⟨c₁, hstep, hrun⟩ := Option.bind_eq_some_iff.mp hrun
      exact ih (h.step hfine hstep) hrun
    · cases hrun

/-- The second request is written when the callback of the first has returned. -/
def bothWritten : List (Input Nat) := twoRequests ++ [.resume true, .tick, .tick]

theorem responses_delivered_two : ∃ c : Connection Nat, (init false).runFine bothWritten = some c ∧
    c.Delivered ∧ ∀ input c', c.Fine input → c.step input = some c' → c.advancing = true → c'.advancing = false →
      c'.Quiet := by
  obtain ⟨c, hc⟩ : ∃ c, (init false : Connection Nat).runFine bothWritten = some c := ⟨_, rfl⟩
  exact ⟨c, hc, responses_delivered (Reached.init.runFine hc)⟩

/-- A request that is issued in the callback of the first overtakes the second. -/
def overtaken : List (Input Nat) := twoRequests ++ [.doRun true 2]

theorem responses_overtaken : ∃ c : Connection Nat, overtaken.foldlM step (init false) = some c ∧ ¬ c.Delivered := by
  refine ⟨_, rfl, fun h => ?_⟩
  have hordered := h.ordered
  revert hordered
  decide

end Connection
end Funbun.Sql
