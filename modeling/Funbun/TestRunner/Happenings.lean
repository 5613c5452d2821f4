import Funbun.TestRunner.Accounts
import Mathlib.Logic.Relation

/-! What happens to a runner, one thing at a time.

Every run is a row of happenings. Those that change a sequence are steps of the sequence, and
leave their marks in the log. -/
namespace Funbun.TestRunner

/-- What a step does to a sequence, with the ids of the entries that it is about. -/
inductive Event where
  | started (entry : Nat)
  | called (entry : Nat)
  | failed (entry : Nat)
  | registered (tag : HookTag) (entry active : Nat)
  | updated
  | completed (entry : Nat)
  | retried
  | repeated
  | finished
  deriving DecidableEq

/-- The entry that is new with an event -/
def Event.made : Event → Option Nat
  | .registered _ entry _ => some entry
  | _ => none

/-- The marks that an event leaves, but for the token of a callback; `n` sequences are executing
behind it. -/
def Event.marks (i n : Nat) : Event → List Mark
  | .started _ => [.entryStarted i n]
  | .completed _ => [.entryCompleted i]
  | .retried => [.sequenceRetried i]
  | .repeated => [.sequenceRepeated i]
  | .finished => [.sequenceCompleted i]
  | .called _ | .failed _ | .registered _ _ _ | .updated => []

/-- Marks that are about no sequence. -/
def Mark.Apart : Mark → Prop
  | .groupStarted _ | .groupCompleted _ _ _ | .underflow | .returned _ => True
  | .entryStarted _ _ | .callbackQueued _ | .accepted _ | .entryCompleted _ | .sequenceRetried _ | .sequenceRepeated _
  | .sequenceCompleted _ => False

namespace ExecutionSequence

/-- What is done to a sequence. -/
inductive Step : ExecutionSequence → Event → ExecutionSequence → Prop
  | started {s : ExecutionSequence} {entry : ExecutionEntry} (active : s.activeEntry = some entry)
    (waiting : s.executing = false) (now now' : Timespec) : Step s (.started entry.id) (s.started now now')
  | called {s : ExecutionSequence} {entry : ExecutionEntry} (active : s.activeEntry = some entry)
    (executing : s.executing = true) : Step s (.called entry.id) s
  | exception {s : ExecutionSequence} {entry : ExecutionEntry} (active : s.activeEntry = some entry) :
    Step s (.failed entry.id) s.handleUncaughtException
  | timeout {s : ExecutionSequence} {entry : ExecutionEntry} (active : s.activeEntry = some entry) {now : Timespec}
    (late : (s.evaluateTimeout now).1 = true) : Step s (.failed entry.id) (s.evaluateTimeout now).2
  | registered {s : ExecutionSequence} {entry hook : ExecutionEntry} (active : s.activeEntry = some entry)
    (tag : HookTag) (added : hook.addedInPhase = .execution) (unskipping : hook.failureSkipPast = none) :
    Step s (.registered tag hook.id entry.id) (s.addHook tag hook)
  | skipped (s : ExecutionSequence) (mode : ScopeMode) : Step s .updated (s.skipEntry mode)
  | expected (s : ExecutionSequence) (count : Nat) (assertions : ExpectAssertions) :
    Step s .updated {s with expectCallCount := count, expectAssertions := assertions}
  | completed {s : ExecutionSequence} {entry : ExecutionEntry} (active : s.activeEntry = some entry)
    (executing : s.executing = true) : Step s (.completed entry.id) s.completeEntry
  | retried {s : ExecutionSequence} (complete : s.remaining = []) (failed : s.result.isFail = true)
    (left : 0 < s.remainingRetryCount) (now : Timespec) :
    Step s .retried {s.addFlakyAttempt now with remainingRetryCount := s.remainingRetryCount - 1}.reset
  | repeated {s : ExecutionSequence} (complete : s.remaining = []) (passed : s.result.isPass = true)
    (left : 0 < s.remainingRepeatCount) :
    Step s .repeated {s with remainingRepeatCount := s.remainingRepeatCount - 1}.reset
  | finished {s : ExecutionSequence} (complete : s.remaining = [])
    (unretried : ¬ (s.result.isFail = true ∧ 0 < s.remainingRetryCount))
    (unrepeated : ¬ (s.result.isPass = true ∧ 0 < s.remainingRepeatCount)) :
    Step s .finished {s with result := s.finalResult}

theorem evaluateTimeout_of_not {s : ExecutionSequence} {now : Timespec} (h : (s.evaluateTimeout now).1 = false) :
    (s.evaluateTimeout now).2 = s := by
  rw [evaluateTimeout] at h ⊢
  split
  · rfl
  · rename_i entry hentry
    rw [hentry] at h
    dsimp only at h
    split
    · rename_i hlate
      rw [if_pos hlate] at h
      cases h
    · rfl

end ExecutionSequence

inductive Happening : BunTest → BunTest → Prop
  | other {b b' : BunTest} (execution : b'.execution = b.execution) (log : b'.log = b.log)
    (nextEntry : b.nextEntry ≤ b'.nextEntry) : Happening b b'
  | emit (b : BunTest) {m : Mark} (apart : m.Apart) : Happening b (b.emit m)
  | accept (b : BunTest) (data : RefData) : Happening b (b.accept data)
  | token (b : BunTest) {a : ConcurrentGroup} {index : Nat} {s : ExecutionSequence} {entry : ExecutionEntry}
    (group : b.execution.activeGroup = some a) (sequence : b.execution.sequences[a.sequenceStart + index]? = some s)
    (active : s.activeEntry = some entry) (executing : s.executing = true) :
    Happening b (b.emit (.callbackQueued
      (.execution b.execution.groupIndex (some ⟨index, entry.id, s.remainingRepeatCount⟩))))
  | step {b b' : BunTest} {i n : Nat} {s s' : ExecutionSequence} {e : Event} (sequence : b.execution.sequences[i]? = some s)
    (step : s.Step e s') (unmade : e.made = none) (uncalled : ∀ entry, e ≠ .called entry)
    (execution : b'.execution = (b.setSequence i s').execution) (log : b'.log = b.log ++ e.marks i n)
    (nextEntry : b'.nextEntry = b.nextEntry) : Happening b b'
  | hook (b : BunTest) {i : Nat} {s : ExecutionSequence} (sequence : b.execution.sequences[i]? = some s)
    (active : s.activeEntry.isSome = true) (tag : HookTag) (hasDoneParameter : Bool) (timeout : Nat) :
    Happening b
      {b.setSequence i (s.addHook tag (b.createHook hasDoneParameter timeout)) with nextEntry := b.nextEntry + 1}
  | group (b : BunTest) (g : Nat) {f : ConcurrentGroup → ConcurrentGroup} (range : ∀ c, (f c).range = c.range) :
    Happening b (b.modifyGroup g f)
  | leave (b : BunTest) {a : ConcurrentGroup} (group : b.execution.activeGroup = some a) {next : Nat}
    (ahead : b.execution.groupIndex < a.failureSkipTo → b.execution.groupIndex < next) :
    Happening b {b with execution := {b.execution with groupIndex := next}}

/-- A row of happenings that stays in the group. -/
structure BunTest.Steady (b b' : BunTest) : Prop where
  happenings : Relation.ReflTransGen Happening b b'
  groupIndex : b'.execution.groupIndex = b.execution.groupIndex
  phase : b'.phase = b.phase

namespace BunTest

theorem Steady.refl (b : BunTest) : b.Steady b := ⟨.refl, rfl, rfl⟩

theorem Steady.trans {b₁ b₂ b₃ : BunTest} (h₁ : b₁.Steady b₂) (h₂ : b₂.Steady b₃) : b₁.Steady b₃ :=
  ⟨h₁.happenings.trans h₂.happenings, h₂.groupIndex.trans h₁.groupIndex, h₂.phase.trans h₁.phase⟩

variable {b b' : BunTest} {i g fuel : Nat} {s : ExecutionSequence} {now now' : Timespec} {o : Loaded} {w : World}

theorem steady_of_happening (h : Happening b b')
    (hindex : b'.execution.groupIndex = b.execution.groupIndex) (hphase : b'.phase = b.phase) : b.Steady b' :=
  ⟨.single h, hindex, hphase⟩

theorem steady_other (hexecution : b'.execution = b.execution) (hlog : b'.log = b.log)
    (hnext : b.nextEntry ≤ b'.nextEntry) (hphase : b'.phase = b.phase) : b.Steady b' :=
  steady_of_happening (.other hexecution hlog hnext) (by rw [hexecution]) hphase

theorem steady_emit (b : BunTest) {m : Mark} (hm : m.Apart) : b.Steady (b.emit m) :=
  steady_of_happening (.emit b hm) rfl rfl

theorem steady_accept (b : BunTest) (data : RefData) : b.Steady (b.accept data) := by
  apply steady_of_happening (.accept b data)
  · rw [accept]
    split <;> rfl
  · rw [accept]
    split <;> rfl

/-- A step of a sequence that leaves no mark -/
theorem steady_update (b : BunTest) {s s' : ExecutionSequence} {e : Event}
    (hs : b.execution.sequences[i]? = some s) (hstep : s.Step e s') (hmade : e.made = none)
    (hcalled : ∀ entry, e ≠ .called entry) (hmarks : e.marks i 0 = []) : b.Steady (b.setSequence i s') := by
  have hlog : (b.setSequence i s').log = b.log ++ e.marks i 0 := by
    rw [hmarks, List.append_nil]
    rfl
  exact steady_of_happening (.step hs hstep hmade hcalled rfl hlog rfl) rfl rfl

/-- A step of a sequence with the mark that it leaves -/
theorem steady_mark (b : BunTest) {i n : Nat} {s s' : ExecutionSequence} {e : Event} {m : Mark}
    (hs : b.execution.sequences[i]? = some s) (hstep : s.Step e s') (hmade : e.made = none)
    (hcalled : ∀ entry, e ≠ .called entry) (hmarks : e.marks i n = [m]) : b.Steady ((b.setSequence i s').emit m) := by
  have hlog : ((b.setSequence i s').emit m).log = b.log ++ e.marks i n := by
    rw [hmarks]
    rfl
  exact steady_of_happening (.step hs hstep hmade hcalled rfl hlog rfl) rfl rfl

theorem modify_of_getElem? (hs : b.execution.sequences[i]? = some s) (f : ExecutionSequence → ExecutionSequence) :
    {b with execution := b.execution.modifySequence i f} = b.setSequence i (f s) := by
  rw [Execution.modifySequence, setSequence, List.modify_eq_set_getElem?, hs]
  rfl

/-- What is done to the sequence a token is for. -/
theorem modifyValid_cases (b : BunTest) (data : RefData) (f : ExecutionSequence → ExecutionSequence) :
    b.modifyValid data f = b ∨ ∃ i s entry, b.execution.sequences[i]? = some s ∧ s.activeEntry = some entry ∧
      b.modifyValid data f = b.setSequence i (f s) := by
  rw [modifyValid, Execution.modifyValid]
  split
  · exact .inl rfl
  · rename_i i hvalid
    obtain ⟨g, entryData, s, -, -, -, -, hs, -, hentry⟩ := Execution.validSequence_eq_some hvalid
    obtain ⟨entry, hactive, -⟩ := Option.map_eq_some_iff.mp hentry
    exact .inr ⟨i, s, entry, hs, hactive, modify_of_getElem? hs f⟩

theorem steady_modifyValid (b : BunTest) (data : RefData) {f : ExecutionSequence → ExecutionSequence}
    (hf : ∀ s entry, s.activeEntry = some entry → ∃ e : Event, ExecutionSequence.Step s e (f s) ∧ e.made = none ∧
      (∀ entry, e ≠ .called entry) ∧ ∀ i, e.marks i 0 = []) : b.Steady (b.modifyValid data f) := by
  rcases b.modifyValid_cases data f with heq | ⟨i, s, entry, hs, hactive, heq⟩
  · rw [heq]
    exact .refl b
  · obtain ⟨e, hstep, hmade, hcalled, hmarks⟩ := hf s entry hactive
    rw [heq]
    exact b.steady_update hs hstep hmade hcalled (hmarks i)

theorem steady_timerCallback (b : BunTest) : b.Steady b.timerCallback := by
  rw [timerCallback]
  split <;> exact steady_other rfl rfl (Nat.le_refl _) rfl

theorem steady_actInside (b : BunTest) (action : Action) : b.Steady (b.actInside action) := by
  cases action with
  | addResult ref => exact steady_other rfl rfl (Nat.le_refl _) rfl
  | uncaughtException ref =>
    rw [actInside, onUncaughtException]
    split
    · apply (b.steady_accept _).trans
      apply steady_modifyValid
      intro s entry hactive
      exact ⟨.failed entry.id, .exception hactive, rfl, by simp, fun _ => rfl⟩
    · exact .refl b
  | addHook tag hasDoneParameter timeout =>
    rw [actInside, addHook]
    split
    · rcases b.modifyValid_cases b.execution.currentStateData
        (fun s => s.addHook tag (b.createHook hasDoneParameter timeout)) with heq | ⟨i, s, entry, hs, hactive, heq⟩
      · rw [heq]
        exact steady_other rfl rfl (Nat.le_succ _) rfl
      · rw [heq]
        exact steady_of_happening (.hook b hs (by rw [hactive]; rfl) tag hasDoneParameter timeout) rfl rfl
    · exact .refl b
  | incrementExpectCallCounter ref =>
    apply b.steady_modifyValid
    intro s _ _
    exact ⟨.updated, .expected s _ s.expectAssertions, rfl, by simp, fun _ => rfl⟩
  | expectAssertions ref assertions =>
    apply b.steady_modifyValid
    intro s _ _
    exact ⟨.updated, .expected s s.expectCallCount assertions, rfl, by simp, fun _ => rfl⟩
  | timer =>
    rw [actInside]
    split
    · exact .refl b
    · exact b.steady_timerCallback.trans (steady_emit _ trivial)
  | run => exact b.steady_emit trivial

theorem steady_actions (b : BunTest) (actions : List Action) : b.Steady (actions.foldl actInside b) := by
  induction actions generalizing b with
  | nil => exact .refl b
  | cons action actions ih => exact (b.steady_actInside action).trans (ih _)

theorem steady_runTestCallback (w : World) (b : BunTest) (timeout : Timespec) :
    b.Steady (b.runTestCallback w timeout).2 := by
  rw [runTestCallback]
  have hupdate : b.Steady (b.updateMinTimeout timeout) := by
    rw [updateMinTimeout]
    split
    · exact steady_other rfl rfl (Nat.le_refl _) rfl
    · exact .refl b
  have hcalls : (b.updateMinTimeout timeout).Steady
      {b.updateMinTimeout timeout with calls := (b.updateMinTimeout timeout).calls + 1} :=
    steady_other rfl rfl (Nat.le_refl _) rfl
  exact (hupdate.trans hcalls).trans (steady_actions _ _)

/-! ### Stepping is a row of happenings -/

theorem getElem?_setSequence (hs : b.execution.sequences[i]? = some s)
    (s' : ExecutionSequence) : (b.setSequence i s').execution.sequences[i]? = some s' :=
  List.getElem?_set_self (List.getElem?_eq_some_iff.mp hs).choose

theorem steady_finishSequence (w : World) (b : BunTest) (g : Nat)
    (hs : b.execution.sequences[i]? = some s) (hcomplete : s.remaining = []) : b.Steady (b.finishSequence w g i s) := by
  rw [finishSequence]
  split
  · rename_i hretry
    have htick : b.Steady b.tick := steady_other rfl rfl (Nat.le_refl _) rfl
    apply htick.trans
    have hcount : (s.addFlakyAttempt (w.now b.ticks)).remainingRetryCount = s.remainingRetryCount := by
      rw [ExecutionSequence.addFlakyAttempt]
      split <;> rfl
    dsimp only
    rw [hcount]
    exact steady_mark (n := 0) _ hs (.retried hcomplete hretry.1 hretry.2 _) rfl (by simp) rfl
  · rename_i hretry
    split
    · rename_i hrepeat
      exact steady_mark (n := 0) _ hs (.repeated hcomplete hrepeat.1 hrepeat.2) rfl (by simp) rfl
    · rename_i hrepeat
      have hcompleted : b.Steady ((b.setSequence i {s with result := s.finalResult}).emit (.sequenceCompleted i)) :=
        steady_mark (n := 0) _ hs (.finished hcomplete hretry hrepeat) rfl (by simp) rfl
      apply hcompleted.trans
      dsimp only
      split
      · exact .refl _
      · split
        · exact steady_emit _ (m := .underflow) trivial
        · exact steady_of_happening (.group _ g fun _ => rfl) rfl rfl

/-- The `i`-th sequence is executing. -/
def Executes (b : BunTest) (i : Nat) : Prop :=
  ∃ s entry, b.execution.sequences[i]? = some s ∧ s.activeEntry = some entry ∧ s.executing = true

theorem steady_advanceSequence (w : World) (g : Nat) (h : b.Executes i) :
    b.Steady (b.advanceSequence w g i) := by
  obtain ⟨s, entry, hs, hactive, hexecuting⟩ := h
  have hcomplete : b.Steady ((b.setSequence i s.completeEntry).emit (.entryCompleted i)) :=
    steady_mark (n := 0) _ hs (.completed hactive hexecuting) rfl (by simp) rfl
  rw [advanceSequence, hs]
  dsimp only
  split
  · rename_i hremaining
    exact hcomplete.trans (steady_finishSequence w _ g (getElem?_setSequence hs _) hremaining)
  · exact hcomplete

theorem executes_runTestCallback (w : World) (hphase : b.phase = .execution) (h : b.Executes i)
    (timeout : Timespec) : (b.runTestCallback w timeout).2.Executes i := by
  obtain ⟨s, entry, hs, hactive, hexecuting⟩ := h
  have hcalm := (runTestCallback_calm w hphase timeout).1
  obtain ⟨s', hs'⟩ := Execution.getElem?_of_length hcalm.execution.length.symm hs
  have hquiet := hcalm.execution.sequences i s s' hs hs'
  exact ⟨s', entry, hs', hquiet.activeEntry.trans hactive, hquiet.executing.trans hexecuting⟩

/-- The timeout of the active entry is evaluated before the sequence advances. -/
theorem steady_evaluateTimeout (b : BunTest) (h : b.Executes i) (now : Timespec) :
    ∃ s, b.execution.sequences[i]? = some s ∧ b.Steady (b.setSequence i (s.evaluateTimeout now).2) ∧
      (b.setSequence i (s.evaluateTimeout now).2).Executes i := by
  obtain ⟨s, entry, hs, hactive, hexecuting⟩ := h
  have hquiet := s.quiet_evaluateTimeout now
  refine ⟨s, hs, ?_, ?_⟩
  · cases hlate : (s.evaluateTimeout now).1 with
    | true => exact b.steady_update hs (.timeout hactive hlate) rfl (by simp) rfl
    | false =>
      rw [ExecutionSequence.evaluateTimeout_of_not hlate]
      exact b.steady_update hs (.expected s s.expectCallCount s.expectAssertions) rfl (by simp) rfl
  · exact ⟨_, entry, getElem?_setSequence hs _, hquiet.activeEntry.trans hactive, hquiet.executing.trans hexecuting⟩

theorem steady_stepSequenceOne (w : World) (hphase : b.phase = .execution)
    (hg : g = b.execution.groupIndex) (index : Nat) (now : Timespec) :
    b.Steady (b.stepSequenceOne w g index now).2.2 := by
  subst hg
  rw [stepSequenceOne]
  split
  · exact .refl b
  · rename_i a ha
    dsimp only
    split
    · exact .refl b
    · rename_i s hs
      split
      · exact .refl b
      · rename_i entry hentry
        split
        · rename_i hexecuting
          obtain ⟨s₁, hs₁, hsteady, hexecutes⟩ := b.steady_evaluateTimeout ⟨s, entry, hs, hentry, hexecuting⟩ now
          cases hs.symm.trans hs₁
          split
          · rename_i s' heq
            rw [heq] at hsteady hexecutes
            exact hsteady.trans (steady_advanceSequence w _ hexecutes)
          · exact .refl b
        · rename_i hexecuting
          obtain ⟨hexecuting₁, -, -, -, hactive₁⟩ := s.started_spec (w.now b.ticks) (w.now b.tick.ticks)
          have hstep : s.Step (.started entry.id) (s.started (w.now b.ticks) (w.now b.tick.ticks)) :=
            .started hentry (Bool.not_eq_true _ ▸ hexecuting) _ _
          generalize s.started _ _ = s₁ at *
          rw [hentry] at hactive₁
          obtain ⟨entry₁, hentry₁, hid⟩ := Option.map_eq_some_iff.mp hactive₁
          have hticks : b.Steady b.tick.tick := steady_other rfl rfl (Nat.le_refl _) rfl
          have hstarted : b.Steady ((b.tick.tick.setSequence (a.sequenceStart + index) s₁).emit
              (.entryStarted (a.sequenceStart + index)
                (b.tick.tick.setSequence (a.sequenceStart + index) s₁).execution.executing)) :=
            hticks.trans (steady_mark _ hs hstep rfl (by simp) rfl)
          have ha₁ : ((b.tick.tick.setSequence (a.sequenceStart + index) s₁).emit
              (.entryStarted (a.sequenceStart + index)
                (b.tick.tick.setSequence (a.sequenceStart + index) s₁).execution.executing)).execution.activeGroup =
              some a := ha
          have hs₁' : ((b.tick.tick.setSequence (a.sequenceStart + index) s₁).emit
              (.entryStarted (a.sequenceStart + index)
                (b.tick.tick.setSequence (a.sequenceStart + index) s₁).execution.executing)).execution.sequences[
                  a.sequenceStart + index]? = some s₁ := getElem?_setSequence (b := b.tick.tick) hs s₁
          generalize (b.tick.tick.setSequence _ s₁).emit _ = b₁ at *
          split
          · -- the callback has a token from here on
            have htoken := steady_of_happening (.token b₁ ha₁ hs₁' hentry₁ hexecuting₁) rfl rfl
            rw [hid] at htoken
            have hqueued := hstarted.trans htoken
            have hcalled := hqueued.trans
              (steady_runTestCallback w _ ((s₁.activeEntry.map ExecutionEntry.timespec).getD 0))
            have hexecutes := executes_runTestCallback w (hqueued.phase.trans hphase) ⟨s₁, entry₁, hs₁', hentry₁, hexecuting₁⟩
              ((s₁.activeEntry.map ExecutionEntry.timespec).getD 0)
            split
            · rename_i b₂ heq
              rw [heq] at hcalled hexecutes
              have htick₂ : b.Steady b₂.tick := hcalled.trans (steady_other rfl rfl (Nat.le_refl _) rfl)
              obtain ⟨s₂, hs₂, hsteady, hexecutes₂⟩ := b₂.tick.steady_evaluateTimeout hexecutes (w.now b₂.ticks)
              rw [hs₂]
              exact (htick₂.trans hsteady).trans (steady_advanceSequence w _ hexecutes₂)
            · rename_i b₂ heq
              rw [heq] at hcalled
              exact hcalled
          · have hquiet := s₁.quiet_skipEntry entry.base.mode
            have hskipped := steady_update _ hs₁' (.skipped s₁ entry.base.mode) rfl (by simp) rfl
            have hexecutes : (b₁.setSequence (a.sequenceStart + index) (s₁.skipEntry entry.base.mode)).Executes
                (a.sequenceStart + index) :=
              ⟨_, entry₁, getElem?_setSequence hs₁' _, hquiet.activeEntry.trans hentry₁, hquiet.executing.trans hexecuting₁⟩
            exact (hstarted.trans hskipped).trans (steady_advanceSequence w _ hexecutes)

theorem steady_stepSequence (w : World) {fuel g index : Nat} {status : Status}
    (hphase : b.phase = .execution) (hg : g = b.execution.groupIndex) (heq : stepSequence w g index fuel b now = some (status, now', b')) :
    b.Steady b' := by
  induction fuel generalizing b now with
  | zero => cases heq
  | succ fuel ih =>
    have hone := steady_stepSequenceOne w hphase hg index now
    rw [stepSequence] at heq
    generalize b.stepSequenceOne w g index now = r at heq hone
    obtain ⟨result, now₁, b₁⟩ := r
    cases result with
    | some status₁ =>
      cases heq
      exact hone
    | none => exact hone.trans (ih (hone.phase.trans hphase) (hg.trans hone.groupIndex.symm) heq)

theorem steady_stepGroupOne (w : World) {fuel g activeCount : Nat} {indices : List Nat}
    {timeout timeout' : Option Timespec} (hphase : b.phase = .execution) (hg : g = b.execution.groupIndex)
    (heq : stepGroupOne w fuel g indices activeCount timeout b now = some (timeout', now', b')) : b.Steady b' := by
  induction indices generalizing activeCount timeout b now with
  | nil =>
    cases heq
    exact .refl _
  | cons index indices ih =>
    rw [stepGroupOne] at heq
    simp only [Option.bind_eq_bind, Option.bind_eq_some_iff] at heq
    obtain ⟨⟨status, now₁, b₁⟩, hstep, heq⟩ := heq
    have hone := steady_stepSequence w hphase hg hstep
    have hg₁ := hg.trans hone.groupIndex.symm
    have hphase₁ := hone.phase.trans hphase
    cases status with
    | done => exact hone.trans (ih hphase₁ hg₁ heq)
    | execute this =>
      dsimp only at heq
      split at heq
      · cases heq
        exact hone
      · exact hone.trans (ih hphase₁ hg₁ heq)

theorem happenings_leave {a : ConcurrentGroup} (ha : b.execution.activeGroup = some a) (remaining : Nat) :
    Relation.ReflTransGen Happening b {(b.modifyGroup b.execution.groupIndex fun group => {group with executing := false}).emit
      (.groupCompleted b.execution.groupIndex remaining (a.next b.execution.groupIndex b.execution.sequences)) with
        execution := {(b.modifyGroup b.execution.groupIndex fun group => {group with executing := false}).execution with
          groupIndex := a.next b.execution.groupIndex b.execution.sequences}} := by
  have hcompleted := ((steady_of_happening (.group b b.execution.groupIndex
    (f := fun group => {group with executing := false}) fun _ => rfl) rfl rfl).trans (steady_emit _
      (m := .groupCompleted b.execution.groupIndex remaining
        (a.next b.execution.groupIndex b.execution.sequences)) trivial)).happenings
  apply hcompleted.tail
  refine .leave _ (a := {a with executing := false}) ?_ fun hlt => ?_
  · rw [Execution.activeGroup] at ha
    simp [Execution.activeGroup, modifyGroup, emit, ha]
  · show b.execution.groupIndex < a.next b.execution.groupIndex b.execution.sequences
    rw [ConcurrentGroup.next]
    split
    · exact hlt
    · exact Nat.lt_succ_self _

theorem happenings_stepGroup (w : World) {result : StepResult}
    (hphase : b.phase = .execution) (heq : stepGroup w fuel b now = some (result, b')) : Relation.ReflTransGen Happening b b' := by
  induction fuel generalizing b now with
  | zero => cases heq
  | succ fuel ih =>
    rw [stepGroup] at heq
    dsimp only at heq
    split at heq
    · cases heq
      exact .refl
    · rename_i a ha
      simp only [Option.bind_eq_bind, Option.bind_eq_some_iff] at heq
      obtain ⟨⟨timeout, now₂, b₂⟩, hone, heq⟩ := heq
      have hentered : b.Steady (if a.executing then b
          else (b.emit (.groupStarted b.execution.groupIndex)).modifyGroup b.execution.groupIndex fun group =>
            {group with executing := true}) := by
        split
        · exact .refl b
        · exact (b.steady_emit (m := .groupStarted b.execution.groupIndex) trivial).trans
            (steady_of_happening (.group _ _ fun _ => rfl) rfl rfl)
      have hsteady := hentered.trans
        (steady_stepGroupOne w (hentered.phase.trans hphase) hentered.groupIndex.symm hone)
      dsimp only at heq
      split at heq
      · cases heq
        exact hsteady.happenings
      · split at heq
        · cases heq
          exact hsteady.happenings
        · rename_i a₂ ha₂
          rw [← hsteady.groupIndex] at heq ha₂
          have hphase₂ : b₂.phase = .execution := hsteady.phase.trans hphase
          exact (hsteady.happenings.trans (happenings_leave ha₂ a₂.remainingIncompleteEntries)).trans (ih hphase₂ heq)

theorem steady_startNext (w : World) {timeout : Option Timespec}
    (hphase : b.phase = .execution) (hg : g = b.execution.groupIndex)
    (heq : startNext w g fuel b now = some (timeout, now', b')) : b.Steady b' := by
  induction fuel generalizing b now with
  | zero => cases heq
  | succ fuel ih =>
    rw [startNext] at heq
    split at heq
    · cases heq
      exact .refl _
    · rename_i a ha
      have hskip : ∀ b : BunTest, b.Steady (b.modifyGroup g fun group =>
          {group with nextSequenceIndex := group.nextSequenceIndex + 1}) :=
        fun b => steady_of_happening (.group b g fun _ => rfl) rfl rfl
      dsimp only at heq
      split at heq
      · cases heq
        exact .refl _
      · split at heq
        · exact (hskip b).trans (ih hphase hg heq)
        · simp only [Option.bind_eq_bind, Option.bind_eq_some_iff] at heq
          obtain ⟨⟨status, now₁, b₁⟩, hstep, heq⟩ := heq
          have hone := steady_stepSequence w hphase hg hstep
          cases status with
          | done => exact (hone.trans (hskip b₁)).trans (ih (hone.phase.trans hphase) (hg.trans hone.groupIndex.symm) heq)
          | execute timeout' =>
            cases heq
            exact hone

/-- A result that is taken is for a sequence that is executing. -/
theorem happenings_step (w : World) {data : RefData} {result : StepResult}
    (hphase : b.phase = .execution) (hexecutes : ∀ i, b.execution.validSequence data = some i → b.Executes i)
    (heq : step w fuel b data = some (result, b')) : Relation.ReflTransGen Happening b b' := by
  have htick : b.Steady b.tick := steady_other rfl rfl (Nat.le_refl _) rfl
  unfold step at heq
  dsimp only at heq
  split at heq
  · exact htick.happenings.trans (happenings_stepGroup w hphase heq)
  · split at heq
    · rename_i i g d _ hvalid
      have hexecuting := hexecutes i hvalid
      obtain ⟨-, d', -, -, hdata, -⟩ := Execution.validSequence_eq_some hvalid
      cases hdata
      simp only [Option.bind_eq_bind, Option.bind_eq_some_iff] at heq
      obtain ⟨⟨status, now₁, b₁⟩, hstep, heq⟩ := heq
      have haccept : (b.tick.accept (.execution b.tick.execution.groupIndex (some d))).Executes i := by
        rw [accept, hvalid]
        exact hexecuting
      have hadvanced := (htick.trans (steady_accept _ (.execution b.tick.execution.groupIndex (some d)))).trans
        (steady_advanceSequence w b.tick.execution.groupIndex haccept)
      have hone := hadvanced.trans
        (steady_stepSequence w (hadvanced.phase.trans hphase) hadvanced.groupIndex.symm hstep)
      cases status with
      | execute timeout =>
        cases heq
        exact hone.happenings
      | done =>
        simp only [Option.bind_eq_some_iff] at heq
        obtain ⟨⟨timeout, now₂, b₂⟩, hnext, heq⟩ := heq
        have htwo := hone.trans (steady_startNext w (hone.phase.trans hphase) hone.groupIndex.symm hnext)
        cases timeout with
        | some timeout =>
          cases heq
          exact htwo.happenings
        | none =>
          dsimp only at heq
          split at heq
          · exact htwo.happenings.trans (happenings_stepGroup w (htwo.phase.trans hphase) heq)
          · cases heq
            exact htwo.happenings
    · cases heq
      exact htick.happenings

/-! ### Runs are rows of happenings -/

theorem happening_update (b : BunTest) (m : Timespec) :
    Happening b ({b with inRunLoop := false}.updateMinTimeout m) := by
  rw [updateMinTimeout]
  split <;> exact .other rfl rfl (Nat.le_refl _)

theorem happenings_runLoop (ho : o.Grouped) {fuel k : Nat}
    {m : Timespec} (h : Settled o b k) (hawake : b.Awake m)
    (heq : runLoop w fuel b m = some b') : Relation.ReflTransGen Happening b b' := by
  induction fuel generalizing b k m with
  | zero => cases heq
  | succ fuel ih =>
    have hphase := h.inv.phase
    rw [runLoop] at heq
    split at heq
    · cases heq
      exact .single (happening_update b m)
    · rename_i data rest hqueue
      simp only [hphase, Option.bind_eq_bind, Option.bind_eq_some_iff] at heq
      obtain ⟨⟨result, b₂⟩, hstep, heq⟩ := heq
      have htaken : Settled o {b with resultQueue := rest} k :=
        settled_of_execution h hphase rfl rfl rfl fun g d hmem => .inl (hqueue ▸ List.mem_cons_of_mem _ hmem)
      have htoken : ∀ g d, data = .execution g (some d) →
          g < b.execution.groupIndex ∨ g = b.execution.groupIndex ∧ d.sequenceIndex < k :=
        fun g d hdata => h.tokens g d (.inl (hqueue ▸ hdata ▸ List.mem_cons_self))
      rw [hphase.symm] at hstep
      obtain ⟨⟨k₂, hsettled⟩, hadvanced⟩ := step_ok ho htaken htoken hstep
      have hexecutes : ∀ i, ({b with resultQueue := rest} : BunTest).execution.validSequence data = some i →
          ({b with resultQueue := rest} : BunTest).Executes i := by
        intro i hvalid
        obtain ⟨-, d, s, -, rfl, -, -, hs, -, hentry⟩ := Execution.validSequence_eq_some hvalid
        obtain ⟨-, s', -, -, -, -, -, hs', hexecuting⟩ := validSequence_executing htaken (htoken _ d rfl) hvalid
        cases hs.symm.trans hs'
        obtain ⟨entry, hactive, -⟩ := Option.map_eq_some_iff.mp hentry
        exact ⟨s, entry, hs, hactive, hexecuting⟩
      have htake : Happening b {b with resultQueue := rest} := .other rfl rfl (Nat.le_refl _)
      have hstepped := (Relation.ReflTransGen.single htake).trans
        (happenings_step w (b := {b with resultQueue := rest}) hphase hexecutes hstep)
      cases result with
      | waiting timeout => exact hstepped.trans (ih hsettled (hadvanced m fun hne => hawake.take hqueue hne) heq)
      | complete =>
        cases heq
        exact hstepped.tail (.other rfl rfl (Nat.le_refl _))

theorem happenings_run (ho : o.Grouped) (h : Ready o b) (heq : run w fuel b = some b') :
    Relation.ReflTransGen Happening b b' := by
  rw [run, h.outside] at heq
  simp only [Bool.false_eq_true, if_false, Option.map_eq_some_iff] at heq
  obtain ⟨b₁, hloop, rfl⟩ := heq
  have hin : Happening b {b with inRunLoop := true} := .other rfl rfl (Nat.le_refl _)
  have hrest : Relation.ReflTransGen Happening {b with inRunLoop := true} b₁ := by
    have hphases : b.phase = .execution ∨ b.phase = .done := by cases b.phase <;> simp
    rcases hphases with hphase | hphase
    · have haccounted : Accounted o {b with inRunLoop := true} := h.requeue rfl rfl rfl rfl fun _ _ => .inl
      obtain ⟨k, hk⟩ := haccounted.running hphase
      exact happenings_runLoop ho hk ⟨(h.awake hphase).alive, (h.awake hphase).timely⟩ hloop
    · obtain ⟨queue, timer, rfl, -⟩ := runLoop_done (b := {b with inRunLoop := true}) hphase hloop
      exact .single (.other rfl rfl (Nat.le_refl _))
  exact ((Relation.ReflTransGen.single hin).trans hrest).tail (.emit b₁ trivial)

theorem happenings_act (ho : o.Grouped) (h : Resting o b) (heq : act w fuel b action = some b') :
    Relation.ReflTransGen Happening b b' := by
  rcases act_cases h heq with rfl | ⟨-, -, rfl⟩ | ⟨b₁, rfl | rfl, hready, hrun⟩
  · exact .refl
  · exact (b.steady_actInside action).happenings
  · exact happenings_run ho hready hrun
  · exact b.steady_timerCallback.happenings.trans (happenings_run ho hready hrun)

theorem happenings_runs (c : Collection) {fuel maxConcurrency : Nat} {actions : List Action}
    (heq : runs w fuel c.generateOrder.2 maxConcurrency actions = some b) :
    Relation.ReflTransGen Happening (load c.generateOrder.2 maxConcurrency) b := by
  obtain ⟨ho, hready⟩ := load_ready c maxConcurrency
  exact (runs_keeps c heq (happenings_run ho hready) fun hrest hact h => h.trans (happenings_act ho hrest hact)).2

end BunTest

end Funbun.TestRunner
