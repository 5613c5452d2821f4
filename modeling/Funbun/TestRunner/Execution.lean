import Funbun.TestRunner.Order

/-! Running the ordered sequences of a file.

One group runs at a time. Its sequences are started in order, as many at once as are allowed. A result is queued with a token
that says which entry it is for (`RefData`), and `BunTest.run` takes the queue until it is empty. What the callbacks of a
file do to the runner, at once or later, is given by a `World`, and so is the time. -/
namespace Funbun.TestRunner

/-- `Timespec::min_ignore_epoch` -/
def minIgnoreEpoch (a b : Timespec) : Timespec :=
  if a = b then b else if a = 0 then b else if b = 0 then a else if a < b then a else b

/-- `Timespec::order_ignore_epoch` is `Less`. -/
def lessIgnoreEpoch (a b : Timespec) : Bool :=
  if a = b then false else if a = 0 then false else if b = 0 then true else a < b

structure EntryData where
  sequenceIndex : Nat
  entry : Nat
  remainingRepeatCount : Nat
  deriving DecidableEq

/-- `RefDataValue` -/
inductive RefData where
  | start
  | collection
  | execution (groupIndex : Nat) (entryData : Option EntryData)
  | done
  deriving DecidableEq

structure Execution where
  groups : List ConcurrentGroup
  sequences : List ExecutionSequence
  groupIndex : Nat

inductive Phase where
  | execution | done
  deriving DecidableEq

/-- How things stand when `BunTest::run` returns. A call that is made while the queue is being
taken, which a callback can make, is `nested`: it returns at once. -/
structure Moment where
  nested : Bool
  phase : Phase
  execution : Execution
  resultQueue : List RefData
  timer : Timespec

/-- What is seen of a run. Sequences are given by their place among all. -/
inductive Mark where
  | groupStarted (group : Nat)
  | groupCompleted (group : Nat) (remainingIncompleteEntries : Nat) (next : Nat)
  | entryStarted (sequence : Nat) (executing : Nat)
  | callbackQueued (data : RefData)
  /-- a result or an exception counts for the sequence its token is for -/
  | accepted (data : RefData)
  | entryCompleted (sequence : Nat)
  | sequenceRetried (sequence : Nat)
  | sequenceRepeated (sequence : Nat)
  | sequenceCompleted (sequence : Nat)
  | underflow
  | returned (moment : Moment)

structure BunTest where
  phase : Phase
  execution : Execution
  resultQueue : List RefData
  /-- 0 when it is not set -/
  timer : Timespec
  inRunLoop : Bool
  maxConcurrency : Nat
  /-- how often the clock was read, and callbacks were called -/
  ticks : Nat
  calls : Nat
  /-- the id for the next entry that is added in the execution phase -/
  nextEntry : Nat
  log : List Mark

inductive HookTag where
  | afterAll | afterEach | onTestFinished
  deriving DecidableEq

/-- Where a token comes from: it was made for the callback that was queued at that place in the
log, it is for what runs now, or it is left from the collection phase. -/
inductive Ref where
  | queued (mark : Nat)
  | current
  | collection

/-- What a file, a promise or a timer does to the runner. -/
inductive Action where
  | addResult (ref : Ref)
  | uncaughtException (ref : Ref)
  | addHook (tag : HookTag) (hasDoneParameter : Bool) (timeout : Nat)
  | incrementExpectCallCounter (ref : Ref)
  | expectAssertions (ref : Ref) (assertions : ExpectAssertions)
  | timer
  | run

/-- What a callback does until it returns, and whether its result is available then. -/
structure Callback where
  actions : List Action
  immediate : Bool

structure World where
  now : Nat → Timespec
  callback : Nat → Callback

/-! ### Sequences -/

namespace ExecutionSequence

def entryMode (s : ExecutionSequence) : ScopeMode :=
  match s.testEntry with
  | some entry => entry.base.mode
  | none => .normal

/-- Whether the active entry is the test and not a hook. -/
def atTest (s : ExecutionSequence) : Bool :=
  s.activeEntry.map ExecutionEntry.id = s.testEntry.map ExecutionEntry.id

/-- Behind the entry with the id, or at the end. -/
def skipPast (s : ExecutionSequence) (id : Nat) : ExecutionSequence :=
  let entries := s.passed ++ s.remaining
  let index := entries.findIdx fun entry => entry.id = id
  {s with passed := entries.take (index + 1), remaining := entries.drop (index + 1)}

/-- The first half of `advance_sequence`: the active entry is completed. -/
def completeEntry (s : ExecutionSequence) : ExecutionSequence :=
  match s.remaining with
  | [] => s
  | entry :: rest =>
    let s := {s with executing := false}
    if s.maybeSkip then
      let s := {s with maybeSkip := false}
      match entry.failureSkipPast with
      | some id => s.skipPast id
      | none => {s with passed := s.passed ++ s.remaining, remaining := []}
    else {s with passed := s.passed ++ [entry], remaining := rest}

/-- `reset_sequence`. Entries that were added in the execution phase are left out. -/
def reset (s : ExecutionSequence) : ExecutionSequence :=
  let entries :=
    match s.passed ++ s.remaining with
    | [] => []
    | first :: rest => first :: rest.filter fun entry => entry.addedInPhase ≠ AddedInPhase.execution
  { init (entries.map fun entry => {entry with timespec := 0}) s.testEntry
      s.remainingRetryCount s.remainingRepeatCount with
    flakyAttempts := s.flakyAttempts }

def maxFlakyAttempts : Nat := 16

def elapsedNs (s : ExecutionSequence) (now : Timespec) : Nat :=
  if s.startedAt = 0 then 0 else now - s.startedAt

def addFlakyAttempt (s : ExecutionSequence) (now : Timespec) : ExecutionSequence :=
  if s.flakyAttempts.length < maxFlakyAttempts then
    {s with flakyAttempts := s.flakyAttempts ++ [⟨s.result, s.elapsedNs now⟩]}
  else s

/-- `on_sequence_completed`: the result that is reported. -/
def finalResult (s : ExecutionSequence) : Result :=
  let result :=
    match s.expectAssertions with
    | .notSet => s.result
    | .atLeastOne =>
      if s.expectCallCount = 0 ∧ s.result.isPass then .failBecauseExpectedHasAssertions else s.result
    | .exact expected =>
      if s.expectCallCount ≠ expected ∧ s.result.isPass then .failBecauseExpectedAssertionCount
      else s.result
  if result = .pending then
    match s.entryMode with
    | .failing => .failBecauseFailingTestPassed
    | .todo => .failBecauseTodoPassed
    | _ => .pass
  else result

def onSequenceStarted (s : ExecutionSequence) (now : Timespec) : ExecutionSequence :=
  match s.testEntry with
  | some entry => if entry.callback then {s with startedAt := now} else s
  | none => {s with startedAt := now}

/-- `on_entry_started`, for the active entry -/
def onEntryStarted (s : ExecutionSequence) (now : Timespec) : ExecutionSequence :=
  match s.remaining with
  | [] => s
  | entry :: rest =>
    if entry.callback then
      let timespec := if entry.timeout ≠ 0 then now + entry.timeout * 1000000 else 0
      {s with remaining := {entry with timespec := timespec} :: rest}
    else s

/-- The first entry of a sequence starts the sequence as well. -/
def started (s : ExecutionSequence) (now now' : Timespec) : ExecutionSequence :=
  let s := {s with executing := true}
  let s := if s.passed = [] then s.onSequenceStarted now else s
  s.onEntryStarted now'

/-- `ExecutionEntry::evaluate_timeout`, for the active entry -/
def evaluateTimeout (s : ExecutionSequence) (now : Timespec) : Bool × ExecutionSequence :=
  match s.activeEntry with
  | none => (false, s)
  | some entry =>
    if entry.timespec ≠ 0 ∧ entry.timespec < now then
      let result :=
        if s.atTest then
          if entry.hasDoneParameter then .failBecauseTimeoutWithDoneCallback else .failBecauseTimeout
        else if entry.hasDoneParameter then .failBecauseHookTimeoutWithDoneCallback
        else .failBecauseHookTimeout
      (true, {s with result := result, maybeSkip := true})
    else (false, s)

/-- The result of an entry that has no callback. -/
def skipEntry (s : ExecutionSequence) (mode : ScopeMode) : ExecutionSequence :=
  if s.result = .pending then
    match mode with
    | .skip => {s with result := .skip}
    | .todo => {s with result := .todo}
    | .filteredOut => {s with result := .skippedBecauseLabel}
    | _ => s
  else s

def handleUncaughtException (s : ExecutionSequence) : ExecutionSequence :=
  let s := {s with maybeSkip := true}
  if s.result = .pending then
    if s.atTest then
      match s.entryMode with
      | .failing => {s with result := .pass}
      | .todo => {s with result := .todo}
      | _ => {s with result := .fail}
    else {s with result := .fail}
  else s

/-- A new entry behind the test, if that is still to come, and else behind the active entry;
`onTestFinished` goes to the end. -/
def addHook (s : ExecutionSequence) (tag : HookTag) (entry : ExecutionEntry) : ExecutionSequence :=
  match tag with
  | .onTestFinished => {s with remaining := s.remaining ++ [entry]}
  | .afterAll | .afterEach =>
    let index := s.remaining.findIdx fun e => some e.id = s.testEntry.map ExecutionEntry.id
    let point := if index < s.remaining.length then index else 0
    {s with remaining := s.remaining.insertIdx (point + 1) entry}

end ExecutionSequence

/-! ### Tokens -/

namespace Execution

def activeGroup (e : Execution) : Option ConcurrentGroup := e.groups[e.groupIndex]?

/-- `get_current_and_valid_execution_sequence`: the place of the sequence -/
def validSequence (e : Execution) (data : RefData) : Option Nat :=
  match data with
  | .execution groupIndex (some entryData) =>
    match e.activeGroup with
    | none => none
    | some group =>
      let index := group.sequenceStart + entryData.sequenceIndex
      if groupIndex ≠ e.groupIndex then none
      else if group.sequenceEnd ≤ index then none
      else
        match e.sequences[index]? with
        | none => none
        | some sequence =>
          if sequence.remainingRepeatCount ≠ entryData.remainingRepeatCount then none
          else if sequence.activeEntry.map ExecutionEntry.id ≠ some entryData.entry then none
          else some index
  | _ => none

/-- `get_current_state_data`, in the execution phase -/
def currentStateData (e : Execution) : RefData :=
  match e.activeGroup with
  | none => .done
  | some group =>
    match group.sequences e.sequences with
    | [sequence] =>
      match sequence.activeEntry with
      | none => .execution e.groupIndex none
      | some entry => .execution e.groupIndex (some ⟨0, entry.id, sequence.remainingRepeatCount⟩)
    | _ => .execution e.groupIndex none

def modifySequence (e : Execution) (i : Nat) (f : ExecutionSequence → ExecutionSequence) : Execution :=
  {e with sequences := e.sequences.modify i f}

/-- What `f` does to the sequence a token is for, if it is valid. -/
def modifyValid (e : Execution) (data : RefData) (f : ExecutionSequence → ExecutionSequence) : Execution :=
  match e.validSequence data with
  | none => e
  | some i => e.modifySequence i f

/-- How many sequences of the active group are executing. -/
def executing (e : Execution) : Nat :=
  match e.activeGroup with
  | none => 0
  | some group => (group.sequences e.sequences).countP fun s => s.executing

end Execution

/-! ### What happens to the runner -/

namespace BunTest

def emit (b : BunTest) (m : Mark) : BunTest := {b with log := b.log ++ [m]}

def tick (b : BunTest) : BunTest := {b with ticks := b.ticks + 1}

def setSequence (b : BunTest) (i : Nat) (s : ExecutionSequence) : BunTest :=
  {b with execution := {b.execution with sequences := b.execution.sequences.set i s}}

def modifyGroup (b : BunTest) (g : Nat) (f : ConcurrentGroup → ConcurrentGroup) : BunTest :=
  {b with execution := {b.execution with groups := b.execution.groups.modify g f}}

def addResult (b : BunTest) (data : RefData) : BunTest := {b with resultQueue := b.resultQueue ++ [data]}

def refData (b : BunTest) : Ref → RefData
  | .queued mark =>
    match b.log[mark]? with
    | some (.callbackQueued data) => data
    | _ => .done
  | .current => b.execution.currentStateData
  | .collection => .collection

def modifyValid (b : BunTest) (data : RefData) (f : ExecutionSequence → ExecutionSequence) : BunTest :=
  {b with execution := b.execution.modifyValid data f}

def accept (b : BunTest) (data : RefData) : BunTest :=
  match b.execution.validSequence data with
  | none => b
  | some _ => b.emit (.accepted data)

/-- `on_uncaught_exception` -/
def onUncaughtException (b : BunTest) (data : RefData) : BunTest :=
  match b.phase with
  | .execution => (b.accept data).modifyValid data ExecutionSequence.handleUncaughtException
  | .done => b

/-- `ExecutionEntry::create`, for a hook that is added in the execution phase -/
def createHook (b : BunTest) (hasDoneParameter : Bool) (timeout : Nat) : ExecutionEntry where
  id := b.nextEntry
  base := ⟨false, .normal, .no, true⟩
  callback := true
  timeout := timeout
  hasDoneParameter := hasDoneParameter
  timespec := 0
  addedInPhase := .execution
  retryCount := 0
  repeatCount := 0
  failureSkipPast := none

/-- `generic_hook_impl` in the execution phase -/
def addHook (b : BunTest) (tag : HookTag) (hasDoneParameter : Bool) (timeout : Nat) : BunTest :=
  match b.phase with
  | .execution =>
    { b.modifyValid b.execution.currentStateData fun s => s.addHook tag (b.createHook hasDoneParameter timeout) with
      nextEntry := b.nextEntry + 1 }
  | .done => b

/-- Only set the timer if the new timeout is sooner. -/
def updateMinTimeout (b : BunTest) (minTimeout : Timespec) : BunTest :=
  if lessIgnoreEpoch minTimeout b.timer then {b with timer := minTimeout} else b

/-- `bun_test_timeout_callback`, up to the call of `run` -/
def timerCallback (b : BunTest) : BunTest :=
  let b := {b with timer := 0}
  match b.phase with
  | .execution => b.addResult .start
  | .done => b

/-- `run` returns. -/
def returned (b : BunTest) (nested : Bool) : BunTest :=
  b.emit (.returned ⟨nested, b.phase, b.execution, b.resultQueue, b.timer⟩)

/-- An action during a callback. The queue is being taken, so `run` returns at once. A timer that
is not set does not go off. -/
def actInside (b : BunTest) : Action → BunTest
  | .addResult ref => b.addResult (b.refData ref)
  | .uncaughtException ref => b.onUncaughtException (b.refData ref)
  | .addHook tag hasDoneParameter timeout => b.addHook tag hasDoneParameter timeout
  | .incrementExpectCallCounter ref =>
    b.modifyValid (b.refData ref) fun s => {s with expectCallCount := min (s.expectCallCount + 1) (UInt32.size - 1)}
  | .expectAssertions ref assertions => b.modifyValid (b.refData ref) fun s => {s with expectAssertions := assertions}
  | .timer => if b.timer = 0 then b else b.timerCallback.returned true
  | .run => b.returned true

/-! ### Stepping -/

/-- `run_test_callback`: true if the result is available. -/
def runTestCallback (w : World) (b : BunTest) (timeout : Timespec) : Bool × BunTest :=
  let b := b.updateMinTimeout timeout
  let callback := w.callback b.calls
  (callback.immediate, callback.actions.foldl actInside {b with calls := b.calls + 1})

/-- The second half of `advance_sequence`: all entries are behind. -/
def finishSequence (w : World) (b : BunTest) (g i : Nat) (s : ExecutionSequence) : BunTest :=
  if s.result.isFail ∧ 0 < s.remainingRetryCount then
    let s := s.addFlakyAttempt (w.now b.ticks)
    (b.tick.setSequence i {s with remainingRetryCount := s.remainingRetryCount - 1}.reset).emit (.sequenceRetried i)
  else if s.result.isPass ∧ 0 < s.remainingRepeatCount then
    (b.setSequence i {s with remainingRepeatCount := s.remainingRepeatCount - 1}.reset).emit (.sequenceRepeated i)
  else
    let b := (b.setSequence i {s with result := s.finalResult}).emit (.sequenceCompleted i)
    match b.execution.groups[g]? with
    | none => b
    | some group =>
      if group.remainingIncompleteEntries = 0 then b.emit .underflow
      else b.modifyGroup g fun group =>
        {group with remainingIncompleteEntries := group.remainingIncompleteEntries - 1}

/-- `advance_sequence` -/
def advanceSequence (w : World) (b : BunTest) (g i : Nat) : BunTest :=
  match b.execution.sequences[i]? with
  | none => b
  | some s =>
    let s' := s.completeEntry
    let b := (b.setSequence i s').emit (.entryCompleted i)
    match s'.remaining with
    | [] => b.finishSequence w g i s'
    | _ :: _ => b

inductive Status where
  /-- the entire sequence is completed -/
  | done
  /-- need to wait for it -/
  | execute (timeout : Timespec)

/-- `step_sequence_one`: none if the loop should go on, with the time of `now`. -/
def stepSequenceOne (w : World) (b : BunTest) (g sequenceIndex : Nat) (now : Timespec) :
    Option Status × Timespec × BunTest :=
  match b.execution.groups[g]? with
  | none => (some .done, now, b)
  | some group =>
    let i := group.sequenceStart + sequenceIndex
    match b.execution.sequences[i]? with
    | none => (some .done, now, b)
    | some s =>
      match s.activeEntry with
      | none => (some (if s.executing then .execute 0 else .done), now, b)
      | some entry =>
        if s.executing then
          match s.evaluateTimeout now with
          | (true, s) => (none, now, (b.setSequence i s).advanceSequence w g i)
          | (false, _) => (some (.execute entry.timespec), now, b)
        else
          let s := s.started (w.now b.ticks) (w.now b.tick.ticks)
          let b := b.tick.tick.setSequence i s
          let b := b.emit (.entryStarted i b.execution.executing)
          let timespec := (s.activeEntry.map ExecutionEntry.timespec).getD 0
          if entry.callback then
            let b := b.emit (.callbackQueued
              (.execution b.execution.groupIndex (some ⟨sequenceIndex, entry.id, s.remainingRepeatCount⟩)))
            match b.runTestCallback w timespec with
            | (true, b) =>
              let now := w.now b.ticks
              let b := b.tick
              match b.execution.sequences[i]? with
              | none => (none, now, b)
              | some s => (none, now, (b.setSequence i (s.evaluateTimeout now).2).advanceSequence w g i)
            | (false, b) => (some (.execute timespec), now, b)
          else (none, now, (b.setSequence i (s.skipEntry entry.base.mode)).advanceSequence w g i)

/-- `step_sequence` -/
def stepSequence (w : World) (g sequenceIndex : Nat) : Nat → BunTest → Timespec → Option (Status × Timespec × BunTest)
  | 0, _, _ => none
  | fuel + 1, b, now =>
    match b.stepSequenceOne w g sequenceIndex now with
    | (some status, now, b) => some (status, now, b)
    | (none, now, b) => stepSequence w g sequenceIndex fuel b now

/-- `step_group_one`, for the sequences that are left. The timeout is none while none of them
is waited for. -/
def stepGroupOne (w : World) (fuel g : Nat) :
    List Nat → Nat → Option Timespec → BunTest → Timespec → Option (Option Timespec × Timespec × BunTest)
  | [], _, timeout, b, now => some (timeout, now, b)
  | sequenceIndex :: rest, activeCount, timeout, b, now => do
    let (status, now, b) ← stepSequence w g sequenceIndex fuel b now
    match status with
    | .done => stepGroupOne w fuel g rest activeCount timeout b now
    | .execute this =>
      let timeout := some (minIgnoreEpoch (timeout.getD 0) this)
      if b.maxConcurrency ≠ 0 ∧ b.maxConcurrency ≤ activeCount + 1 then some (timeout, now, b)
      else stepGroupOne w fuel g rest (activeCount + 1) timeout b now

inductive StepResult where
  | waiting (timeout : Timespec)
  | complete

/-- `step_group` -/
def stepGroup (w : World) : Nat → BunTest → Timespec → Option (StepResult × BunTest)
  | 0, _, _ => none
  | fuel + 1, b, now => do
    let g := b.execution.groupIndex
    match b.execution.activeGroup with
    | none => some (.complete, b)
    | some group =>
      let b :=
        if group.executing then b
        else (b.emit (.groupStarted g)).modifyGroup g fun group => {group with executing := true}
      let (timeout, now, b) ←
        stepGroupOne w fuel g (List.range (group.sequenceEnd - group.sequenceStart)) 0 none b now
      match timeout with
      | some timeout => some (.waiting timeout, b)
      | none =>
        match b.execution.groups[g]? with
        | none => some (.complete, b)
        | some group =>
          let next := group.next g b.execution.sequences
          let b := (b.modifyGroup g fun group => {group with executing := false}).emit
            (.groupCompleted g group.remainingIncompleteEntries next)
          stepGroup w fuel {b with execution := {b.execution with groupIndex := next}} now

/-- The loop of `step` that looks for a sequence to start: none if there is none left. -/
def startNext (w : World) (g : Nat) : Nat → BunTest → Timespec → Option (Option Timespec × Timespec × BunTest)
  | 0, _, _ => none
  | fuel + 1, b, now => do
    match b.execution.groups[g]? with
    | none => some (none, now, b)
    | some group =>
      let next := group.nextSequenceIndex
      if group.sequenceEnd - group.sequenceStart ≤ next then some (none, now, b)
      else
        let skip (b : BunTest) : BunTest :=
          b.modifyGroup g fun group => {group with nextSequenceIndex := group.nextSequenceIndex + 1}
        if (b.execution.sequences[group.sequenceStart + next]?).any fun s => s.executing then
          startNext w g fuel (skip b) now
        else
          let (status, now, b) ← stepSequence w g next fuel b now
          match status with
          | .done => startNext w g fuel (skip b) now
          | .execute timeout => some (some timeout, now, b)

/-- `Execution::step` -/
def step (w : World) (fuel : Nat) (b : BunTest) (data : RefData) : Option (StepResult × BunTest) := do
  let now := w.now b.ticks
  let b := b.tick
  match data with
  | .start => stepGroup w fuel b now
  | _ =>
    match b.execution.validSequence data, data with
    | some i, .execution g (some entryData) =>
      let b := (b.accept data).advanceSequence w g i
      let (status, now, b) ← stepSequence w g entryData.sequenceIndex fuel b now
      match status with
      | .execute timeout => some (.waiting timeout, b)
      | .done =>
        let (timeout, now, b) ← startNext w g fuel b now
        match timeout with
        | some timeout => some (.waiting timeout, b)
        | none =>
          if (b.execution.groups[g]?).any fun group => group.remainingIncompleteEntries = 0 then
            stepGroup w fuel b now
          else some (.waiting 0, b)
    | _, _ => some (.waiting 0, b)

/-! ### Running -/

/-- The loop of `run`. It ends when the queue is empty, or with the phase. -/
def runLoop (w : World) : Nat → BunTest → Timespec → Option BunTest
  | 0, _, _ => none
  | fuel + 1, b, minTimeout => do
    match b.resultQueue with
    | [] => some ({b with inRunLoop := false}.updateMinTimeout minTimeout)
    | data :: rest =>
      let b := {b with resultQueue := rest}
      let (result, b) ←
        match b.phase with
        | .execution => step w fuel b data
        | .done => some (.complete, b)
      match result with
      | .waiting timeout => runLoop w fuel b (minIgnoreEpoch minTimeout timeout)
      | .complete => some {b with phase := .done, inRunLoop := false}

/-- `BunTest::run` -/
def run (w : World) (fuel : Nat) (b : BunTest) : Option BunTest :=
  if b.inRunLoop then some (b.returned true)
  else (runLoop w fuel {b with inRunLoop := true} 0).map fun b => b.returned false

/-- An action when no callback is being called. -/
def act (w : World) (fuel : Nat) (b : BunTest) : Action → Option BunTest
  | .timer => if b.timer = 0 then some b else run w fuel b.timerCallback
  | .run => run w fuel b
  | action => some (b.actInside action)

/-- `load_from_order`, with what `_advance` queues. -/
def load (o : Order) (maxConcurrency : Nat) : BunTest where
  phase := .execution
  execution := ⟨o.groups, o.sequences, 0⟩
  resultQueue := [.start]
  timer := 0
  inRunLoop := false
  maxConcurrency := maxConcurrency
  ticks := 0
  calls := 0
  nextEntry := ((o.sequences.flatMap fun s => s.entries.map ExecutionEntry.id).max?.getD 0) + 1
  log := []

/-- The queue is taken when the order is loaded, and then there is one action after the other. -/
def runs (w : World) (fuel : Nat) (o : Order) (maxConcurrency : Nat) (actions : List Action) : Option BunTest := do
  let b ← run w fuel (load o maxConcurrency)
  actions.foldlM (act w fuel) b

end BunTest

end Funbun.TestRunner
