import Mathlib.Data.List.Perm.Basic

/-! What the test runner schedules.

Collecting a file gives a tree of describe scopes. It is ordered into groups of sequences: a sequence is a hook, or a test
between its hooks, and the sequences of one group may run at the same time. -/
namespace Funbun.TestRunner

/-! ### The collected tree -/

inductive ScopeMode where
  | normal | skip | todo | failing | filteredOut
  deriving DecidableEq

inductive Only where
  | no | contains | yes
  deriving DecidableEq

inductive AddedInPhase where
  | preload | collection | execution
  deriving DecidableEq

/-- `EPOCH`, which is 0, stands for a time that is not set. -/
abbrev Timespec := Nat

structure BaseScope where
  concurrent : Bool
  mode : ScopeMode
  only : Only
  hasCallback : Bool

/-- A hook or a test. `id` tells entries apart the way their addresses do: a copy of a hook
that is made for a test keeps it, and no sequence has two copies of one hook.
`failureSkipPast` is the id of the entry to go behind when this one fails. -/
structure ExecutionEntry where
  id : Nat
  base : BaseScope
  callback : Bool
  timeout : Nat
  hasDoneParameter : Bool
  timespec : Timespec
  addedInPhase : AddedInPhase
  retryCount : Nat
  repeatCount : Nat
  failureSkipPast : Option Nat

mutual

structure DescribeScope where
  base : BaseScope
  entries : List TestScheduleEntry
  beforeAll : List ExecutionEntry
  beforeEach : List ExecutionEntry
  afterEach : List ExecutionEntry
  afterAll : List ExecutionEntry
  failed : Bool

inductive TestScheduleEntry where
  | describe (scope : DescribeScope)
  | testCallback (test : ExecutionEntry)

end

def TestScheduleEntry.base : TestScheduleEntry → BaseScope
  | .describe scope => scope.base
  | .testCallback test => test.base

/-- Induction on a scope, with the claim for everything in it at hand. -/
theorem DescribeScope.induction {P : DescribeScope → Prop} {Q : TestScheduleEntry → Prop}
    (scope : ∀ s, (∀ e ∈ s.entries, Q e) → P s) (describe : ∀ s, P s → Q (.describe s))
    (testCallback : ∀ t, Q (.testCallback t)) (s : DescribeScope) : P s := by
  apply @DescribeScope.rec P Q fun l => ∀ e ∈ l, Q e
  · exact fun _ _ _ _ _ _ _ ih => scope _ ih
  · exact describe
  · exact testCallback
  · exact fun e he => absurd he List.not_mem_nil
  · exact fun _ _ he hl => List.forall_mem_cons.mpr ⟨he, hl⟩

/-! ### Sequences and groups -/

inductive Result where
  | pending | pass | skip | skippedBecauseLabel | todo | fail | failBecauseTimeout
  | failBecauseTimeoutWithDoneCallback | failBecauseHookTimeout
  | failBecauseHookTimeoutWithDoneCallback | failBecauseFailingTestPassed | failBecauseTodoPassed
  | failBecauseExpectedHasAssertions | failBecauseExpectedAssertionCount
  deriving DecidableEq

inductive Basic where
  | pending | pass | fail | skip | todo
  deriving DecidableEq

def Result.basicResult : Result → Basic
  | .pending => .pending
  | .pass => .pass
  | .skip | .skippedBecauseLabel => .skip
  | .todo => .todo
  | .fail | .failBecauseTimeout | .failBecauseTimeoutWithDoneCallback | .failBecauseHookTimeout
  | .failBecauseHookTimeoutWithDoneCallback | .failBecauseFailingTestPassed | .failBecauseTodoPassed
  | .failBecauseExpectedHasAssertions | .failBecauseExpectedAssertionCount => .fail

/-- `is_pass(PendingIsPass)` -/
def Result.isPass (r : Result) : Bool :=
  match r.basicResult with
  | .pass | .skip | .todo | .pending => true
  | .fail => false

def Result.isFail (r : Result) : Bool := !r.isPass

inductive ExpectAssertions where
  | notSet | atLeastOne | exact (n : Nat)
  deriving DecidableEq

structure FlakyAttempt where
  result : Result
  elapsedNs : Nat

/-- The entries of a sequence are linked from `first_entry` on. Here they are the entries
behind the active one, `passed`, and those from it on, `remaining`; the sequence is complete when
none remain. -/
structure ExecutionSequence where
  passed : List ExecutionEntry
  remaining : List ExecutionEntry
  testEntry : Option ExecutionEntry
  remainingRepeatCount : Nat
  remainingRetryCount : Nat
  flakyAttempts : List FlakyAttempt
  result : Result
  executing : Bool
  startedAt : Timespec
  expectCallCount : Nat
  expectAssertions : ExpectAssertions
  maybeSkip : Bool

def ExecutionSequence.init (entries : List ExecutionEntry) (testEntry : Option ExecutionEntry)
    (retryCount repeatCount : Nat) : ExecutionSequence where
  passed := []
  remaining := entries
  testEntry := testEntry
  remainingRepeatCount := repeatCount
  remainingRetryCount := retryCount
  flakyAttempts := []
  result := .pending
  executing := false
  startedAt := 0
  expectCallCount := 0
  expectAssertions := .notSet
  maybeSkip := false

def ExecutionSequence.entries (s : ExecutionSequence) : List ExecutionEntry := s.passed ++ s.remaining

def ExecutionSequence.activeEntry (s : ExecutionSequence) : Option ExecutionEntry := s.remaining.head?

structure ConcurrentGroup where
  sequenceStart : Nat
  sequenceEnd : Nat
  nextSequenceIndex : Nat
  executing : Bool
  remainingIncompleteEntries : Nat
  failureSkipTo : Nat

def ConcurrentGroup.init (sequenceStart sequenceEnd nextIndex : Nat) : ConcurrentGroup where
  sequenceStart := sequenceStart
  sequenceEnd := sequenceEnd
  nextSequenceIndex := 0
  executing := false
  remainingIncompleteEntries := sequenceEnd - sequenceStart
  failureSkipTo := nextIndex

def ConcurrentGroup.tryExtend (g : ConcurrentGroup) (nextSequenceStart nextSequenceEnd : Nat) :
    Option ConcurrentGroup :=
  if g.sequenceEnd ≠ nextSequenceStart then none
  else some { g with
    sequenceEnd := nextSequenceEnd
    remainingIncompleteEntries := nextSequenceEnd - g.sequenceStart }

def ConcurrentGroup.sequences (g : ConcurrentGroup) (all : List ExecutionSequence) :
    List ExecutionSequence :=
  (all.drop g.sequenceStart).take (g.sequenceEnd - g.sequenceStart)

end Funbun.TestRunner
