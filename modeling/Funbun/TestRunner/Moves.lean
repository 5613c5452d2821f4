import Funbun.TestRunner.Happenings

/-! What happens to a runner, as far as attempts go.

Every run is a row of moves, so what all moves keep holds in every run. -/
namespace Funbun.TestRunner

/-- What decides where a sequence goes when the entry is completed. -/
def ExecutionEntry.key (e : ExecutionEntry) : Nat × Option Nat := (e.id, e.failureSkipPast)

/-- Results and times may differ. -/
structure ExecutionSequence.Same (s s' : ExecutionSequence) : Prop where
  passed : s'.passed.map ExecutionEntry.key = s.passed.map ExecutionEntry.key
  remaining : s'.remaining.map ExecutionEntry.key = s.remaining.map ExecutionEntry.key
  repeats : s'.remainingRepeatCount = s.remainingRepeatCount

/-- Marks that say nothing about the attempts of a sequence. -/
def Mark.Plain : Mark → Prop
  | .groupStarted _ | .groupCompleted _ _ _ | .entryStarted _ _ | .sequenceCompleted _ | .underflow | .returned _ => True
  | .callbackQueued _ | .accepted _ | .entryCompleted _ | .sequenceRetried _ | .sequenceRepeated _ => False

inductive Move : BunTest → BunTest → Prop
  | other {b b' : BunTest} (execution : b'.execution = b.execution) (log : b'.log = b.log)
    (nextEntry : b.nextEntry ≤ b'.nextEntry) : Move b b'
  | emit (b : BunTest) {m : Mark} (plain : m.Plain) : Move b (b.emit m)
  | accept (b : BunTest) (data : RefData) : Move b (b.accept data)
  | token (b : BunTest) {a : ConcurrentGroup} {index : Nat} {s : ExecutionSequence} {entry : ExecutionEntry}
    (group : b.execution.activeGroup = some a) (sequence : b.execution.sequences[a.sequenceStart + index]? = some s)
    (active : s.activeEntry.map ExecutionEntry.id = some entry.id) :
    Move b (b.emit (.callbackQueued
      (.execution b.execution.groupIndex (some ⟨index, entry.id, s.remainingRepeatCount⟩))))
  | update (b : BunTest) {i : Nat} {s s' : ExecutionSequence} (sequence : b.execution.sequences[i]? = some s)
    (same : s.Same s') : Move b (b.setSequence i s')
  | hook (b : BunTest) {i : Nat} {s : ExecutionSequence} (sequence : b.execution.sequences[i]? = some s)
    (active : s.activeEntry.isSome = true) (tag : HookTag) (hasDoneParameter : Bool) (timeout : Nat) :
    Move b {b.setSequence i (s.addHook tag (b.createHook hasDoneParameter timeout)) with nextEntry := b.nextEntry + 1}
  | complete (b : BunTest) {i : Nat} {s : ExecutionSequence} (sequence : b.execution.sequences[i]? = some s) :
    Move b ((b.setSequence i s.completeEntry).emit (.entryCompleted i))
  | retry (b : BunTest) {i : Nat} {s s' : ExecutionSequence} (sequence : b.execution.sequences[i]? = some s)
    (kept : (s'.entries.map ExecutionEntry.key).Sublist (s.entries.map ExecutionEntry.key)) :
    Move b ((b.setSequence i s').emit (.sequenceRetried i))
  | rerun (b : BunTest) {i : Nat} {s s' : ExecutionSequence} (sequence : b.execution.sequences[i]? = some s)
    (kept : (s'.entries.map ExecutionEntry.key).Sublist (s.entries.map ExecutionEntry.key))
    (fewer : s'.remainingRepeatCount < s.remainingRepeatCount) :
    Move b ((b.setSequence i s').emit (.sequenceRepeated i))
  | group (b : BunTest) (g : Nat) {f : ConcurrentGroup → ConcurrentGroup} (range : ∀ c, (f c).range = c.range) :
    Move b (b.modifyGroup g f)
  | leave (b : BunTest) {a : ConcurrentGroup} (group : b.execution.activeGroup = some a) {next : Nat}
    (ahead : b.execution.groupIndex < a.failureSkipTo → b.execution.groupIndex < next) :
    Move b {b with execution := {b.execution with groupIndex := next}}

namespace ExecutionSequence

theorem Same.refl (s : ExecutionSequence) : Same s s := ⟨rfl, rfl, rfl⟩

theorem same_handleUncaughtException (s : ExecutionSequence) : Same s s.handleUncaughtException := by
  rw [handleUncaughtException]
  dsimp only
  split
  · split
    · split <;> exact ⟨rfl, rfl, rfl⟩
    · exact ⟨rfl, rfl, rfl⟩
  · exact ⟨rfl, rfl, rfl⟩

theorem same_evaluateTimeout (s : ExecutionSequence) (now : Timespec) : Same s (s.evaluateTimeout now).2 := by
  rw [evaluateTimeout]
  split
  · exact .refl s
  · split <;> exact ⟨rfl, rfl, rfl⟩

theorem same_skipEntry (s : ExecutionSequence) (mode : ScopeMode) : Same s (s.skipEntry mode) := by
  unfold skipEntry
  split
  · split <;> exact ⟨rfl, rfl, rfl⟩
  · exact .refl s

theorem same_started (s : ExecutionSequence) (now now' : Timespec) : Same s (s.started now now') := by
  obtain ⟨startedAt, timespec, heq⟩ := s.started_eq now now'
  rw [heq]
  refine ⟨rfl, ?_, rfl⟩
  cases s.remaining <;> rfl

/-- `reset_sequence` leaves entries out, and its counts are those that the sequence has. -/
theorem reset_kept (s : ExecutionSequence) :
    (s.reset.entries.map ExecutionEntry.key).Sublist (s.entries.map ExecutionEntry.key) ∧
      s.reset.remainingRepeatCount = s.remainingRepeatCount := by
  refine ⟨?_, rfl⟩
  rw [reset, entries, entries]
  generalize s.passed ++ s.remaining = l
  cases l with
  | nil => exact List.Sublist.refl _
  | cons first rest =>
    simp only [init, List.nil_append, List.map_cons, List.map_map]
    exact (List.filter_sublist.map _).cons_cons _

end ExecutionSequence

namespace BunTest

/-- What is left to do when a move made the sequences and the marks what they are. -/
theorem moves_of_move {b b₁ b' : BunTest} (hmove : Move b b₁) (hexecution : b'.execution = b₁.execution)
    (hlog : b'.log = b₁.log) (hnext : b₁.nextEntry ≤ b'.nextEntry) : Relation.ReflTransGen Move b b' :=
  (Relation.ReflTransGen.single hmove).tail (.other hexecution hlog hnext)

theorem moves_step {b b' : BunTest} {i n : Nat} {s s' : ExecutionSequence} {e : Event}
    (hs : b.execution.sequences[i]? = some s) (hstep : s.Step e s') (hmade : e.made = none)
    (hexecution : b'.execution = (b.setSequence i s').execution) (hlog : b'.log = b.log ++ e.marks i n)
    (hnext : b'.nextEntry = b.nextEntry) : Relation.ReflTransGen Move b b' := by
  have hsilent : s.Same s' → (∀ m ∈ e.marks i n, m.Plain) → Relation.ReflTransGen Move b b' := by
    intro hsame hplain
    have hupdate := Relation.ReflTransGen.single (Move.update b hs hsame)
    rcases hmarks : e.marks i n with _ | ⟨m, _ | ⟨m', rest⟩⟩
    · rw [hmarks, List.append_nil] at hlog
      exact hupdate.tail (.other hexecution hlog hnext.ge)
    · rw [hmarks] at hlog hplain
      exact (hupdate.tail (.emit _ (hplain m List.mem_cons_self))).tail (.other hexecution hlog hnext.ge)
    · cases e <;> cases hmarks
  cases hstep with
  | completed active executing => exact moves_of_move (.complete b hs) hexecution hlog hnext.ge
  | retried complete failed left now =>
    apply moves_of_move (.retry b hs _) hexecution hlog hnext.ge
    have hentries : (s.addFlakyAttempt now).entries = s.entries := by
      rw [ExecutionSequence.addFlakyAttempt]
      split <;> rfl
    rw [← hentries]
    exact (ExecutionSequence.reset_kept _).1
  | repeated complete passed left =>
    obtain ⟨hkept, hcount⟩ := ExecutionSequence.reset_kept {s with remainingRepeatCount := s.remainingRepeatCount - 1}
    apply moves_of_move (.rerun b hs hkept _) hexecution hlog hnext.ge
    rw [hcount]
    exact Nat.sub_lt left Nat.one_pos
  | started active waiting now now' =>
    exact hsilent (s.same_started now now') (by simp [Event.marks, Mark.Plain])
  | called active executing => exact hsilent (.refl s) (by simp [Event.marks])
  | exception active => exact hsilent s.same_handleUncaughtException (by simp [Event.marks])
  | timeout active late => exact hsilent (s.same_evaluateTimeout _) (by simp [Event.marks])
  | registered active tag added unskipping => cases hmade
  | skipped mode => exact hsilent (s.same_skipEntry mode) (by simp [Event.marks])
  | expected count assertions => exact hsilent ⟨rfl, rfl, rfl⟩ (by simp [Event.marks])
  | finished complete unretried unrepeated => exact hsilent ⟨rfl, rfl, rfl⟩ (by simp [Event.marks, Mark.Plain])

theorem moves_of_happening {b b' : BunTest} (h : Happening b b') : Relation.ReflTransGen Move b b' := by
  cases h with
  | other execution log nextEntry => exact .single (.other execution log nextEntry)
  | @emit m apart =>
    apply Relation.ReflTransGen.single
    apply Move.emit
    cases m <;> trivial
  | accept data => exact .single (.accept b data)
  | token group sequence active executing => exact .single (.token b group sequence (by rw [active]; rfl))
  | step sequence step unmade uncalled execution log nextEntry =>
    exact moves_step sequence step unmade execution log nextEntry
  | hook sequence active tag hasDoneParameter timeout => exact .single (.hook b sequence active tag hasDoneParameter timeout)
  | group g range => exact .single (.group b g range)
  | leave group ahead => exact .single (.leave b group ahead)

theorem moves_runs (c : Collection) {w : World} {fuel maxConcurrency : Nat} {actions : List Action} {b : BunTest}
    (heq : runs w fuel c.generateOrder.2 maxConcurrency actions = some b) :
    Relation.ReflTransGen Move (load c.generateOrder.2 maxConcurrency) b := by
  have hhappenings := happenings_runs c heq
  clear heq
  induction hhappenings with
  | refl => exact .refl
  | tail _ happening ih => exact ih.trans (moves_of_happening happening)

end BunTest

end Funbun.TestRunner
