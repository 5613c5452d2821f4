import Funbun.TestRunner.Loading

/-! The runner accounts for every sequence, and wakes up.

Between two actions the runner rests (`Resting`): in the execution phase something is awaited, and the timer covers every
deadline. A run of the queue gets there from any queue. -/
namespace Funbun.TestRunner.BunTest

/-! ### Steps -/

variable {o : Loaded} {b b' : BunTest} {k fuel : Nat} {w : World} {m : Timespec} {action : Action}

theorem settled_of_execution (h : Settled o b k) (hphase : b'.phase = .execution)
    (hexecution : b'.execution = b.execution) (hmax : b'.maxConcurrency = b.maxConcurrency) (hlog : b'.log = b.log)
    (hqueue : ∀ g d, .execution g (some d) ∈ b'.resultQueue → b.Token (.execution g (some d))) : Settled o b' k := by
  have hminor : b.Minor b' none :=
    { phase := hphase.trans h.inv.phase.symm
      maxConcurrency := hmax
      groups := by rw [hexecution]
      groupIndex := by rw [hexecution]
      length := by rw [hexecution]
      others := by
        intro i s s' _ hs hs'
        rw [hexecution] at hs'
        cases hs.symm.trans hs'
        exact .refl s
      stepped := fun _ _ _ hhole => nomatch hhole
      log := ⟨[], by rw [hlog, List.append_nil], by simp⟩ }
  refine ⟨h.inv.minor hminor, ?_⟩
  intro g d htoken
  rw [hexecution]
  apply h.tokens g d
  rcases htoken with hqueued | hlogged
  · exact hqueue g d hqueued
  · exact .inr (hlog ▸ hlogged)

theorem step_ok (ho : o.Grouped)
    {data : RefData} {result : StepResult} (h : Settled o b k) (htoken : ∀ g d, data = .execution g (some d) →
      g < b.execution.groupIndex ∨ g = b.execution.groupIndex ∧ d.sequenceIndex < k)
    (heq : step w fuel b data = some (result, b')) : (∃ k', Settled o b' k') ∧ b.Advanced b' data result := by
  have htick : Settled o b.tick k := settled_of_execution h h.inv.phase rfl rfl rfl fun _ _ => .inl
  have hawake : ∀ m, b.Awake m → b.tick.Awake m := fun m hm => ⟨hm.alive, hm.timely⟩
  have hstale : ∀ r, data ≠ .start → r = some (StepResult.waiting 0, b.tick) → r = some (result, b') →
      (∃ k', Settled o b' k') ∧ b.Advanced b' data result := by
    intro r hne hr hr'
    cases hr.symm.trans hr'
    refine ⟨⟨k, htick⟩, fun m hm => ?_⟩
    rw [minIgnoreEpoch_zero]
    exact hawake m (hm hne)
  cases data with
  | start =>
    obtain ⟨hsettled, hwaits⟩ := stepGroup_ok ho htick heq
    exact ⟨hsettled, hwaits.advanced⟩
  | collection => exact hstale _ nofun rfl heq
  | done => exact hstale _ nofun rfl heq
  | execution g entryData =>
    cases entryData with
    | none => exact hstale _ nofun rfl heq
    | some d =>
      cases hvalid : b.execution.validSequence (.execution g (some d)) with
      | none =>
        apply hstale _ nofun _ heq
        have hvalid' : b.tick.execution.validSequence (.execution g (some d)) = none := hvalid
        simp only [step, hvalid']
      | some i =>
        have hvalid' : b.tick.execution.validSequence (.execution g (some d)) = some i := hvalid
        simp only [step, hvalid'] at heq
        obtain ⟨hsettled, hadvanced⟩ := step_valid_ok ho htick (htoken g d rfl) hvalid' heq
        refine ⟨hsettled, ?_⟩
        cases result with
        | waiting timeout => exact fun m hm => hadvanced m fun hne => hawake m (hm hne)
        | complete => exact hadvanced

/-! ### The queue -/

/-- The execution phase is done when there is no group left. -/
structure Accounted (o : Loaded) (b : BunTest) : Prop where
  settled : ∃ k, Settled o {b with phase := .execution} k
  done : b.phase = .done → b.execution.activeGroup = none

/-- How things are between two actions. -/
structure Resting (o : Loaded) (b : BunTest) : Prop extends Accounted o b where
  outside : b.inRunLoop = false
  alive : b.phase = .execution → 0 < b.execution.executing
  timely : b.phase = .execution → b.Timely 0

theorem updateMinTimeout_eq (b : BunTest) (m : Timespec) :
    ∃ timer, b.updateMinTimeout m = {b with timer := timer} := by
  rw [updateMinTimeout]
  split
  · exact ⟨m, rfl⟩
  · exact ⟨b.timer, rfl⟩

theorem Timely.update (h : b.Timely m) : (b.updateMinTimeout m).Timely 0 := by
  obtain ⟨hcalm, hcovers⟩ := b.calm_updateMinTimeout m
  obtain ⟨timer, heq⟩ := b.updateMinTimeout_eq m
  rw [heq] at hcalm hcovers ⊢
  intro a ha i s hi hs hexecuting entry hentry hne
  left
  rcases h a ha i s hi hs hexecuting entry hentry hne with hcovered | ⟨hm, hle⟩
  · exact hcalm.covers _ hcovered
  · apply (hcovers hm).imp id
    intro ⟨htimer, hle'⟩
    exact ⟨htimer, hle'.trans hle⟩

/-- The queue when its first item is taken. -/
theorem Awake.take {data : RefData} {rest : List RefData} (h : b.Awake m)
    (hqueue : b.resultQueue = data :: rest) (hne : data ≠ .start) : ({b with resultQueue := rest} : BunTest).Awake m := by
  have hstart : .start ∈ b.resultQueue → .start ∈ rest := by
    rw [hqueue]
    intro hmem
    exact (List.mem_cons.mp hmem).resolve_left (Ne.symm hne)
  refine ⟨h.alive.imp id hstart, ?_⟩
  intro a ha i s hi hs hexecuting entry hentry htimespec
  exact (h.timely a ha i s hi hs hexecuting entry hentry htimespec).imp (Or.imp hstart id) id

/-- What the queue is taken to, if it comes to an end. -/
theorem runLoop_ok (ho : o.Grouped) (h : Settled o b k) (hawake : b.Awake m)
    (heq : runLoop w fuel b m = some b') : Resting o b' ∧ (b'.phase = .execution → b'.resultQueue = []) := by
  induction fuel generalizing b k m with
  | zero => cases heq
  | succ fuel ih =>
    have hphase := h.inv.phase
    rw [runLoop] at heq
    split at heq
    · rename_i hqueue
      have halive : 0 < b.execution.executing := by
        apply hawake.alive.resolve_right
        rw [hqueue]
        exact List.not_mem_nil
      have htimely := Timely.update (b := {b with inRunLoop := false}) (m := m) hawake.timely
      obtain ⟨timer, hupdate⟩ := updateMinTimeout_eq {b with inRunLoop := false} m
      rw [hupdate] at heq htimely
      cases heq
      refine ⟨⟨⟨⟨k, ?_⟩, ?_⟩, rfl, fun _ => halive, fun _ => htimely⟩, fun _ => hqueue⟩
      · exact settled_of_execution h rfl rfl rfl rfl fun _ _ => .inl
      · intro hdone
        cases hphase.symm.trans hdone
    · rename_i data rest hqueue
      simp only [hphase, Option.bind_eq_bind, Option.bind_eq_some_iff] at heq
      obtain ⟨⟨result, b₂⟩, hstep, heq⟩ := heq
      have htaken : Settled o {b with resultQueue := rest} k :=
        settled_of_execution h hphase rfl rfl rfl fun g d hmem => .inl (hqueue ▸ List.mem_cons_of_mem _ hmem)
      rw [hphase.symm] at hstep
      obtain ⟨⟨k₂, hsettled⟩, hadvanced⟩ := step_ok ho htaken
        (fun g d hdata => h.tokens g d (.inl (hqueue ▸ hdata ▸ List.mem_cons_self))) hstep
      cases result with
      | waiting timeout => exact ih hsettled (hadvanced m fun hne => hawake.take hqueue hne) heq
      | complete =>
        cases heq
        exact ⟨⟨⟨⟨k₂, settled_of_execution hsettled rfl rfl rfl rfl fun _ _ => .inl⟩, fun _ => hadvanced⟩, rfl, nofun,
          nofun⟩, nofun⟩

/-! ### Actions -/

theorem Accounted.running (h : Accounted o b) (hphase : b.phase = .execution) :
    ∃ k, Settled o b k := by
  obtain ⟨k, hk⟩ := h.settled
  exact ⟨k, settled_of_execution hk hphase rfl rfl rfl fun _ _ => .inl⟩

/-- A change of the queue and the timer. -/
theorem Accounted.requeue (h : Accounted o b) (hphase : b'.phase = b.phase)
    (hexecution : b'.execution = b.execution) (hmax : b'.maxConcurrency = b.maxConcurrency) (hlog : b'.log = b.log)
    (hqueue : ∀ g d, .execution g (some d) ∈ b'.resultQueue → b.Token (.execution g (some d))) : Accounted o b' where
  settled := by
    obtain ⟨k, hk⟩ := h.settled
    exact ⟨k, settled_of_execution hk rfl hexecution hmax hlog hqueue⟩
  done := by
    rw [hphase, hexecution]
    exact h.done

theorem runLoop_done (h : b.phase = .done) (heq : runLoop w fuel b m = some b') :
    ∃ queue timer, b' = {b with resultQueue := queue, timer := timer, inRunLoop := false} ∧
      ∀ data ∈ queue, data ∈ b.resultQueue := by
  cases fuel with
  | zero => cases heq
  | succ fuel =>
    rw [runLoop] at heq
    split at heq
    · obtain ⟨timer, hupdate⟩ := updateMinTimeout_eq {b with inRunLoop := false} m
      rw [hupdate] at heq
      cases heq
      exact ⟨_, timer, rfl, fun _ => id⟩
    · rename_i data rest hqueue
      simp only [h] at heq
      cases heq
      refine ⟨rest, b.timer, by rw [← h], ?_⟩
      intro data' hmem
      rw [hqueue]
      exact List.mem_cons_of_mem _ hmem

/-- How things are when `run` returns, is a mark. -/
theorem Resting.returned (h : Resting o b)
    (hqueue : b.phase = .execution → b.resultQueue = []) : Resting o (b.returned false) := by
  have hin : ∀ hphase : b.phase = .execution, Moment.InTime ⟨false, b.phase, b.execution, b.resultQueue, b.timer⟩ := by
    intro hphase g hg s hs hexecuting entry hentry hne
    obtain ⟨i, hi, hs⟩ := ConcurrentGroup.mem_sequences.mp hs
    rcases h.timely hphase g hg i s hi hs hexecuting entry hentry hne with (hstart | htimer) | ⟨hzero, -⟩
    · rw [hqueue hphase] at hstart
      cases hstart
    · exact htimer
    · cases hzero rfl
  obtain ⟨⟨⟨k, hk⟩, hdone⟩, hout, halive, htimely⟩ := h
  have hcounted : b.execution.Counted := hk.inv.counted
  have hmark : Harmless b.maxConcurrency (.returned ⟨false, b.phase, b.execution, b.resultQueue, b.timer⟩) :=
    ⟨fun hphase _ => ⟨halive hphase, fun _ => hin hphase⟩, hcounted⟩
  refine ⟨⟨⟨k, hk.inv.minor (minor_emit _ _ hmark fun _ => rfl), ?_⟩, hdone⟩, hout, halive, htimely⟩
  intro g d htoken
  apply hk.tokens g d
  apply htoken.imp id
  intro hmem
  exact (List.mem_append.mp hmem).resolve_right (by simp)

/-- The loop may run. -/
structure Ready (o : Loaded) (b : BunTest) : Prop extends Accounted o b where
  outside : b.inRunLoop = false
  awake : b.phase = .execution → b.Awake 0

theorem Resting.ready (h : Resting o b) : Ready o b :=
  ⟨h.toAccounted, h.outside, fun hphase => ⟨.inl (h.alive hphase), h.timely hphase⟩⟩

theorem run_ok (ho : o.Grouped) (h : Ready o b) (heq : run w fuel b = some b') : Resting o b' := by
  rw [run, h.outside] at heq
  simp only [Bool.false_eq_true, if_false, Option.map_eq_some_iff] at heq
  obtain ⟨b₁, hloop, rfl⟩ := heq
  have hin : Accounted o {b with inRunLoop := true} := h.requeue rfl rfl rfl rfl fun _ _ => .inl
  cases hphase : b.phase with
  | execution =>
    obtain ⟨k, hk⟩ := hin.running hphase
    have hawake' : ({b with inRunLoop := true} : BunTest).Awake 0 := ⟨(h.awake hphase).alive, (h.awake hphase).timely⟩
    obtain ⟨hresting, hqueue⟩ := runLoop_ok ho hk hawake' hloop
    exact hresting.returned hqueue
  | done =>
    obtain ⟨queue, timer, rfl, hqueue⟩ := runLoop_done (b := {b with inRunLoop := true}) hphase hloop
    have hnot : ∀ {P : Prop}, b.phase = .execution → P := by
      intro P hphase'
      cases hphase.symm.trans hphase'
    apply Resting.returned
    · exact ⟨h.requeue rfl rfl rfl rfl fun _ _ hmem => .inl (hqueue _ hmem), rfl, hnot, hnot⟩
    · exact hnot

theorem Timely.calm (h : b.Timely m) (hcalm : b.Calm b') : b'.Timely m := by
  intro a ha i s' hi hs' hexecuting entry hentry hne
  rw [Execution.activeGroup_congr hcalm.execution.groups hcalm.execution.groupIndex] at ha
  obtain ⟨s, hs⟩ := Execution.getElem?_of_length hcalm.execution.length hs'
  have hquiet := hcalm.execution.sequences i s s' hs hs'
  exact (h a ha i s hi hs (hquiet.executing ▸ hexecuting) entry (hquiet.activeEntry ▸ hentry) hne).imp
    (hcalm.covers _) id

theorem Resting.calm (h : Resting o b) (hphase : b.phase = .execution) (hcalm : b.Calm b') : Resting o b' := by
  obtain ⟨k, hinv, htokens⟩ := h.toAccounted.running hphase
  have halive := h.alive hphase
  have hphase' : b'.phase = .execution := hcalm.phase.trans hphase
  have hsettled : Settled o b' k := by
    refine ⟨hinv.minor (hcalm.minor halive hinv.counted), ?_⟩
    intro g d htoken
    rw [hcalm.execution.groupIndex]
    rcases hcalm.tokens g d htoken with hold | ⟨hg, hd, a, ha, -⟩
    · exact htokens g d hold
    · refine .inr ⟨hg, ?_⟩
      by_contra hk
      have hle := hinv.executing_le ha (p := 0) (by omega)
      simp only [executingBefore, List.take_zero, List.countP_nil] at hle
      omega
  refine ⟨⟨⟨k, settled_of_execution hsettled rfl rfl rfl rfl fun _ _ => .inl⟩, ?_⟩, hcalm.inRunLoop.trans h.outside,
    fun _ => hcalm.execution.executing ▸ halive, fun _ => (h.timely hphase).calm hcalm⟩
  intro hdone
  cases hphase'.symm.trans hdone

theorem modifyValid_of_none (h : b.execution.activeGroup = none) (data : RefData)
    (f : ExecutionSequence → ExecutionSequence) : b.modifyValid data f = b := by
  have hnone : b.execution.validSequence data = none := by
    cases hvalid : b.execution.validSequence data with
    | none => rfl
    | some i =>
      obtain ⟨g, -, -, hg, -⟩ := Execution.validSequence_eq_some hvalid
      cases h.symm.trans hg
  rw [modifyValid, Execution.modifyValid, hnone]

/-- Behind the last phase, only the queue changes. -/
theorem Resting.actInside_done (h : Resting o b) (hphase : b.phase = .done)
    (htimer : action ≠ .timer) (hrun : action ≠ .run) : Resting o (b.actInside action) := by
  have hgroup := h.done hphase
  cases action with
  | timer => cases htimer rfl
  | run => cases hrun rfl
  | addResult ref =>
    refine ⟨h.toAccounted.requeue rfl rfl rfl rfl ?_, h.outside, h.alive, ?_⟩
    · intro g d hmem
      rcases List.mem_append.mp hmem with hmem | hmem
      · exact .inl hmem
      · rcases refData_eq (List.mem_singleton.mp hmem).symm with htoken | ⟨-, -, a, ha, -⟩
        · exact htoken
        · cases hgroup.symm.trans ha
    · intro hphase'
      cases hphase.symm.trans hphase'
  | uncaughtException ref => simpa only [actInside, onUncaughtException, hphase] using h
  | addHook tag hasDoneParameter timeout => simpa only [actInside, addHook, hphase] using h
  | incrementExpectCallCounter ref => simpa only [actInside, modifyValid_of_none hgroup] using h
  | expectAssertions ref assertions => simpa only [actInside, modifyValid_of_none hgroup] using h

theorem Resting.actInside (h : Resting o b) (htimer : action ≠ .timer)
    (hrun : action ≠ .run) : Resting o (b.actInside action) := by
  cases hphase : b.phase with
  | execution => exact h.calm hphase (calm_actInside hphase action)
  | done => exact h.actInside_done hphase htimer hrun

theorem Resting.timerCallback (h : Resting o b) : Ready o b.timerCallback := by
  cases hphase : b.phase with
  | execution =>
    have heq : b.timerCallback = {b with timer := 0, resultQueue := b.resultQueue ++ [.start]} := by
      simp [BunTest.timerCallback, hphase, addResult]
    have hstart : .start ∈ b.resultQueue ++ [RefData.start] := by simp
    rw [heq]
    refine ⟨h.toAccounted.requeue rfl rfl rfl rfl ?_, h.outside, fun _ => ⟨.inr hstart, ?_⟩⟩
    · intro g d hmem
      rcases List.mem_append.mp hmem with hmem | hmem
      · exact .inl hmem
      · cases List.mem_singleton.mp hmem
    · exact fun _ _ _ _ _ _ _ _ _ _ => .inl (.inl hstart)
  | done =>
    have heq : b.timerCallback = {b with timer := 0} := by
      simp [BunTest.timerCallback, hphase]
    rw [heq]
    refine ⟨h.toAccounted.requeue rfl rfl rfl rfl fun _ _ => .inl, h.outside, ?_⟩
    intro hphase'
    cases hphase.symm.trans hphase'

/-- What an action does: the loop runs, maybe after the timer, or nothing runs. -/
theorem act_cases (h : Resting o b) (heq : act w fuel b action = some b') :
    b' = b ∨ (action ≠ .timer ∧ action ≠ .run ∧ b' = b.actInside action) ∨
      ∃ b₁, (b₁ = b ∨ b₁ = b.timerCallback) ∧ Ready o b₁ ∧ run w fuel b₁ = some b' := by
  cases action with
  | timer =>
    rw [act] at heq
    split at heq
    · exact .inl (Option.some.inj heq).symm
    · exact .inr (.inr ⟨b.timerCallback, .inr rfl, h.timerCallback, heq⟩)
  | run => exact .inr (.inr ⟨b, .inl rfl, h.ready, heq⟩)
  | addResult | uncaughtException | addHook | incrementExpectCallCounter | expectAssertions =>
    exact .inr (.inl ⟨nofun, nofun, (Option.some.inj heq).symm⟩)

theorem act_ok (ho : o.Grouped) (h : Resting o b) (heq : act w fuel b action = some b') : Resting o b' := by
  rcases act_cases h heq with rfl | ⟨htimer, hrun, rfl⟩ | ⟨b₁, -, hready, hrun⟩
  · exact h
  · exact h.actInside htimer hrun
  · exact run_ok ho hready hrun

/-- What was loaded is grouped, and the loop may run. -/
theorem load_ready (c : Collection) (maxConcurrency : Nat) :
    Loaded.Grouped ⟨c.generateOrder.2, maxConcurrency⟩ ∧
      Ready ⟨c.generateOrder.2, maxConcurrency⟩ (load c.generateOrder.2 maxConcurrency) := by
  have hgrouped := (Collection.generateOrder_ordered c).1
  have hload := load_settled c maxConcurrency
  have hstart : .start ∈ (load c.generateOrder.2 maxConcurrency).resultQueue := List.mem_singleton_self _
  refine ⟨⟨hgrouped.partition, fun j g hg => (hgrouped.bounds j g hg).1⟩, ⟨⟨0, hload⟩, nofun⟩, rfl, fun _ => ⟨.inr hstart, ?_⟩⟩
  exact fun _ _ _ _ _ _ _ _ _ _ => .inl (.inl hstart)

/-- What the first run establishes and every action keeps, holds after every run. -/
theorem runs_keeps (c : Collection) {fuel maxConcurrency : Nat} {actions : List Action}
    (heq : runs w fuel c.generateOrder.2 maxConcurrency actions = some b) {P : BunTest → Prop}
    (hfirst : ∀ {b}, run w fuel (load c.generateOrder.2 maxConcurrency) = some b → P b)
    (hact : ∀ {b b' action}, Resting ⟨c.generateOrder.2, maxConcurrency⟩ b → act w fuel b action = some b' → P b → P b') :
    Resting ⟨c.generateOrder.2, maxConcurrency⟩ b ∧ P b := by
  obtain ⟨ho, hready⟩ := load_ready c maxConcurrency
  rw [runs] at heq
  simp only [Option.bind_eq_bind, Option.bind_eq_some_iff] at heq
  obtain ⟨b₀, hrun, hfold⟩ := heq
  have hrest := run_ok ho hready hrun
  have hholds := hfirst hrun
  clear hrun
  induction actions generalizing b₀ with
  | nil =>
    cases hfold
    exact ⟨hrest, hholds⟩
  | cons action actions ih =>
    rw [List.foldlM_cons] at hfold
    simp only [Option.bind_eq_bind, Option.bind_eq_some_iff] at hfold
    obtain ⟨b₁, hstep, hfold⟩ := hfold
    exact ih b₁ hfold (act_ok ho hrest hstep) (hact hrest hstep hholds)

theorem runs_resting (c : Collection) {fuel maxConcurrency : Nat} {actions : List Action}
    (heq : runs w fuel c.generateOrder.2 maxConcurrency actions = some b) : Resting ⟨c.generateOrder.2, maxConcurrency⟩ b :=
  (runs_keeps c heq (fun _ => trivial) fun _ _ => id).1

/-! ### The accounts -/

/-- `completions` counts the calls of `on_sequence_completed`. A group that was passed without being
skipped was run. -/
structure Accounts (b : BunTest) (maxConcurrency : Nat) : Prop where
  ended : b.phase = .done → b.execution.activeGroup = none
  passed : ∀ j g, b.execution.groups[j]? = some g → j < b.execution.groupIndex → ∀ i, g.Has i →
    (¬ b.Skipped j → b.completions i = 1) ∧ (b.Skipped j → b.completions i = 0)
  active : ∀ g, b.execution.activeGroup = some g → ∀ i s, g.Has i → b.execution.sequences[i]? = some s →
    b.completions i = if s.activeEntry.isSome then 0 else 1
  ahead : ∀ j g, b.execution.groups[j]? = some g → b.execution.groupIndex < j → ∀ i, g.Has i → b.completions i = 0
  counted : b.execution.Counted
  underflow : .underflow ∉ b.log
  left : ∀ j remaining next, .groupCompleted j remaining next ∈ b.log → remaining = 0
  concurrency : maxConcurrency ≠ 0 → b.execution.executing ≤ maxConcurrency
  starts : maxConcurrency ≠ 0 → ∀ i executing, .entryStarted i executing ∈ b.log → executing ≤ maxConcurrency
  moments : ∀ m, .returned m ∈ b.log → m.execution.Counted ∧ m.Wakes

theorem Accounted.accounts (ho : Partition 0 o.groups o.sequences.length)
    (h : Accounted o b) : Accounts b o.maxConcurrency := by
  obtain ⟨⟨k, hk⟩, hended⟩ := h
  have hinv : Inv o {b with phase := .execution} k none := hk.inv
  have hlimit : b.maxConcurrency = o.maxConcurrency := hinv.limit
  have hmarks := hinv.marks
  have hsequence : ∀ j g, b.execution.groups[j]? = some g → ∀ i, g.Has i → ∃ s,
      b.execution.sequences[i]? = some s ∧
        ({b with phase := .execution} : BunTest).SequenceOk k j (i - g.sequenceStart) i s := by
    intro j g hg i hi
    have hle : g.sequenceEnd ≤ b.execution.sequences.length := ((hinv.partition ho).end_le hg).2
    have hs := List.getElem?_eq_getElem (hi.2.trans_le hle)
    exact ⟨_, hs, hinv.sequences j g hg i _ hi hs nofun⟩
  refine ⟨hended, ?_, ?_, ?_, hinv.counted, hmarks.underflow, fun j r n hm => (hmarks.left j r n hm).1, ?_, ?_, ?_⟩
  · intro j g hg hj i hi
    obtain ⟨s, -, hok⟩ := hsequence j g hg i hi
    obtain ⟨-, hdone⟩ := hok.behind hj
    constructor
    · intro hnot
      have hstarted : b.HasStarted j := (hmarks.passed j hj).resolve_right hnot
      exact hok.completions.trans (by rw [hdone.mpr hstarted]; rfl)
    · intro ⟨j₀, r, n, hm, hlt, hlt'⟩
      have hnot : ¬ b.HasStarted j := (hmarks.left j₀ r n hm).2.2 j hlt hlt'
      have hinc : s.incomplete = true := by
        cases hinc : s.incomplete with
        | true => rfl
        | false => exact absurd (hdone.mp hinc) hnot
      exact hok.completions.trans (by rw [hinc]; rfl)
  · intro g hg i s hi hs
    exact (hinv.sequences _ g hg i s hi hs nofun).completions
  · intro j g hg hj i hi
    obtain ⟨s, -, hok⟩ := hsequence j g hg i hi
    exact hok.completions.trans (by rw [(hok.ahead hj).2]; rfl)
  · intro hne
    have hle := hinv.concurrency (hlimit ▸ hne)
    exact hle.trans_eq hlimit
  · intro hne i n hm
    exact (hmarks.concurrency (hlimit ▸ hne) i n hm).trans_eq hlimit
  · intro m hm
    exact (hmarks.moments m hm).symm

/-- **The runner accounts for every sequence, and never stalls**: whatever the callbacks of a file do,
and whatever comes back from them and when. -/
theorem runs_accounts (c : Collection) {w : World} {fuel maxConcurrency : Nat} {actions : List Action} {b : BunTest}
    (h : runs w fuel c.generateOrder.2 maxConcurrency actions = some b) : Accounts b maxConcurrency :=
  (runs_resting c h).toAccounted.accounts (Collection.generateOrder_ordered c).1.partition

/-! Two concurrent tests and a hook behind each. The hook waits in an event loop of its own, where
`run` is called. -/

def exampleTest (id timeout : Nat) : ExecutionEntry :=
  ⟨id, ⟨true, .normal, .no, true⟩, true, timeout, false, 0, .collection, 0, 0, none⟩

def exampleFile : Collection where
  rootScope :=
    ⟨⟨false, .normal, .no, true⟩, [.testCallback (exampleTest 1 1000), .testCallback (exampleTest 2 5)], [], [],
      [exampleTest 3 0], [], false⟩
  hookScope := ⟨⟨false, .normal, .no, false⟩, [], [], [], [], [], false⟩
  first := true
  last := true
  hasFilter := false
  randomize := none

/-- The second test times out when the timer goes off. -/
def exampleWorld : World where
  now tick := if tick < 5 then 1 else 10000000
  callback call := if call = 2 then ⟨[.run], false⟩ else ⟨[], false⟩

theorem runs_accounts_example :
    Accounts ((runs exampleWorld 10 exampleFile.generateOrder.2 20 [.timer]).get (by decide)) 20 :=
  runs_accounts exampleFile (Option.some_get _).symm

/-- Where the queue is being taken further up, `run` returns without the timer being set for the
first test. -/
theorem nested_run_sets_no_timer : ∃ b m, runs exampleWorld 10 exampleFile.generateOrder.2 20 [.timer] = some b ∧
    .returned m ∈ b.log ∧ m.phase = .execution ∧ m.resultQueue = [] ∧
      (∃ s ∈ m.execution.sequences, s.activeEntry.isSome = true) ∧ ¬ m.InTime := by
  refine ⟨_, _, rfl, List.mem_of_getElem? (i := 9) rfl, rfl, rfl, ⟨_, List.mem_cons_self, rfl⟩, ?_⟩
  intro h
  exact (h _ rfl _ List.mem_cons_self rfl _ rfl nofun).1 rfl

end Funbun.TestRunner.BunTest
