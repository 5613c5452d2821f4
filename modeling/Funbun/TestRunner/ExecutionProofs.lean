import Funbun.TestRunner.OrderProofs
import Funbun.TestRunner.Execution

/-! Every sequence is accounted for.

The sequences of the active group that were started are the first `k`; each is executing or complete (`Inv`). While a
sequence is being stepped it is neither: it is the hole of the invariant. Whatever callbacks do, they do not start, complete
or move on a sequence (`Calm`), and a deadline the timer covers stays covered until the queue is taken. -/
namespace Funbun.TestRunner

/-! ### Groups and their sequences -/

namespace ConcurrentGroup

def range (g : ConcurrentGroup) : Nat × Nat × Nat := (g.sequenceStart, g.sequenceEnd, g.failureSkipTo)

/-- The place among all sequences is in the group. -/
def Has (g : ConcurrentGroup) (i : Nat) : Prop := g.sequenceStart ≤ i ∧ i < g.sequenceEnd

variable {g : ConcurrentGroup} {i : Nat} {all : List ExecutionSequence}

theorem sequences_getElem? (all : List ExecutionSequence) (h : g.Has i) : (g.sequences all)[i - g.sequenceStart]? = all[i]? := by
  obtain ⟨hstart, hend⟩ := h
  rw [sequences, List.getElem?_take_of_lt (by omega), List.getElem?_drop]
  congr 1
  omega

theorem sequences_set (h : g.Has i) (s : ExecutionSequence) :
    g.sequences (all.set i s) = (g.sequences all).set (i - g.sequenceStart) s := by
  rw [sequences, List.drop_set, if_neg (by have := h.1; omega), List.take_set]
  rfl

theorem sequences_set_of_not_has (h : ¬ g.Has i) (s : ExecutionSequence) :
    g.sequences (all.set i s) = g.sequences all := by
  rw [sequences, List.drop_set]
  split
  · rfl
  · rw [List.take_set, List.set_eq_of_length_le]
    · rfl
    · rw [Has] at h
      have hlength : ((all.drop g.sequenceStart).take (g.sequenceEnd - g.sequenceStart)).length ≤
          g.sequenceEnd - g.sequenceStart := List.length_take_le _ _
      omega

theorem mem_sequences {s : ExecutionSequence} : s ∈ g.sequences all ↔ ∃ i, g.Has i ∧ all[i]? = some s := by
  rw [List.mem_iff_getElem?]
  constructor
  · rintro ⟨p, hp⟩
    have hlt : p < g.sequenceEnd - g.sequenceStart := by
      have hlength := (List.getElem?_eq_some_iff.mp hp).choose
      rw [sequences, List.length_take] at hlength
      omega
    have hhas : g.Has (g.sequenceStart + p) := ⟨by omega, by omega⟩
    refine ⟨_, hhas, ?_⟩
    rw [← sequences_getElem? all hhas, Nat.add_sub_cancel_left, hp]
  · rintro ⟨i, hhas, hi⟩
    exact ⟨_, (sequences_getElem? all hhas).trans hi⟩

theorem sequences_congr {g' : ConcurrentGroup} (h : g'.range = g.range) : g'.sequences all = g.sequences all := by
  simp only [range, Prod.mk.injEq] at h
  rw [sequences, sequences, h.1, h.2.1]

theorem countP_sequences_congr {p : ExecutionSequence → Bool} {all' : List ExecutionSequence}
    (h : all'.map p = all.map p) (g : ConcurrentGroup) :
    (g.sequences all').countP p = (g.sequences all).countP p := by
  have hslice := congrArg (fun l => (l.drop g.sequenceStart).take (g.sequenceEnd - g.sequenceStart)) h
  simp only [← List.map_drop, ← List.map_take] at hslice
  have hcount := congrArg (List.countP id) hslice
  simp only [List.countP_map, Function.id_comp] at hcount
  exact hcount

/-- How many of the sequences of a group have a property, when one of them changes. -/
theorem countP_sequences_set (p : ExecutionSequence → Bool) (h : g.Has i) {s : ExecutionSequence}
    (hs : all[i]? = some s) (s' : ExecutionSequence) :
    (g.sequences (all.set i s')).countP p + (if p s then 1 else 0) =
      (g.sequences all).countP p + (if p s' then 1 else 0) := by
  rw [← sequences_getElem? all h] at hs
  obtain ⟨hlt, hget⟩ := List.getElem?_eq_some_iff.mp hs
  have hpos : p s = true → 0 < (g.sequences all).countP p := by
    intro hp
    exact List.countP_pos_iff.mpr ⟨s, List.mem_of_getElem? hs, hp⟩
  rw [sequences_set h, List.countP_set hlt, hget]
  split
  · have := hpos ‹_›
    omega
  · omega

end ConcurrentGroup

variable {n m : Nat} {gs : List ConcurrentGroup}

theorem Partition.congr {gs gs' : List ConcurrentGroup} (h : Partition n gs m)
    (hranges : gs'.map ConcurrentGroup.range = gs.map ConcurrentGroup.range) : Partition n gs' m := by
  induction gs generalizing n gs' with
  | nil =>
    rw [List.map_nil, List.map_eq_nil_iff] at hranges
    subst hranges
    exact h
  | cons g gs ih =>
    rw [List.map_cons, List.map_eq_cons_iff] at hranges
    obtain ⟨g', gs', rfl, hg, hgs⟩ := hranges
    obtain ⟨hstart, hend, hrest⟩ := h
    simp only [ConcurrentGroup.range, Prod.mk.injEq] at hg
    refine ⟨hg.1.trans hstart, hg.2.1 ▸ hend, ?_⟩
    rw [hg.2.1]
    exact ih hrest hgs

theorem Partition.le (h : Partition n gs m) : n ≤ m := by
  induction gs generalizing n with
  | nil => exact Nat.le_of_eq h
  | cons g gs ih => exact h.2.1.le.trans (ih h.2.2)

theorem Partition.end_le (h : Partition n gs m) {j : Nat}
    {g : ConcurrentGroup} (hj : gs[j]? = some g) : g.sequenceStart < g.sequenceEnd ∧ g.sequenceEnd ≤ m := by
  induction gs generalizing n j with
  | nil => simp at hj
  | cons first gs ih =>
    obtain ⟨hstart, hend, hrest⟩ := h
    cases j with
    | zero =>
      cases hj
      exact ⟨hstart ▸ hend, hrest.le⟩
    | succ j => exact ih hrest hj

/-- No place is in two groups. -/
theorem Partition.group_eq (h : Partition n gs m) {j j' : Nat}
    {g g' : ConcurrentGroup} (hj : gs[j]? = some g) (hj' : gs[j']? = some g') {i : Nat} (hi : g.Has i)
    (hi' : g'.Has i) : j = j' := by
  induction gs generalizing n j j' with
  | nil => simp at hj
  | cons first gs ih =>
    obtain ⟨-, -, hrest⟩ := h
    cases j with
    | zero =>
      cases j' with
      | zero => rfl
      | succ j' =>
        cases hj
        have hle := hrest.le_start hj'
        rw [ConcurrentGroup.Has] at hi hi'
        omega
    | succ j =>
      cases j' with
      | zero =>
        cases hj'
        have hle := hrest.le_start hj
        rw [ConcurrentGroup.Has] at hi hi'
        omega
      | succ j' => exact congrArg _ (ih hrest hj hj')

/-! ### Sequences -/

namespace ExecutionSequence

def incomplete (s : ExecutionSequence) : Bool := s.activeEntry.isSome

variable {s : ExecutionSequence}

theorem incomplete_iff : s.incomplete = true ↔ s.remaining ≠ [] := by
  cases h : s.remaining <;> simp [incomplete, activeEntry, h]

/-- What a callback leaves of a sequence: it is not started, moved on or completed. -/
structure Quiet (s s' : ExecutionSequence) : Prop where
  executing : s'.executing = s.executing
  activeEntry : s'.activeEntry = s.activeEntry
  passed : s'.passed = s.passed
  remainingRepeatCount : s'.remainingRepeatCount = s.remainingRepeatCount

theorem Quiet.refl (s : ExecutionSequence) : Quiet s s := ⟨rfl, rfl, rfl, rfl⟩

theorem Quiet.trans {s₁ s₂ s₃ : ExecutionSequence} (h₁ : Quiet s₁ s₂) (h₂ : Quiet s₂ s₃) : Quiet s₁ s₃ :=
  ⟨h₂.executing.trans h₁.executing, h₂.activeEntry.trans h₁.activeEntry, h₂.passed.trans h₁.passed,
    h₂.remainingRepeatCount.trans h₁.remainingRepeatCount⟩

theorem Quiet.incomplete {s s' : ExecutionSequence} (h : Quiet s s') : s'.incomplete = s.incomplete := by
  rw [ExecutionSequence.incomplete, h.activeEntry, ExecutionSequence.incomplete]

theorem quiet_handleUncaughtException (s : ExecutionSequence) : Quiet s s.handleUncaughtException := by
  rw [handleUncaughtException]
  split
  · split
    · split <;> exact ⟨rfl, rfl, rfl, rfl⟩
    · exact ⟨rfl, rfl, rfl, rfl⟩
  · exact ⟨rfl, rfl, rfl, rfl⟩

theorem quiet_evaluateTimeout (s : ExecutionSequence) (now : Timespec) : Quiet s (s.evaluateTimeout now).2 := by
  rw [evaluateTimeout]
  split
  · exact Quiet.refl s
  · split
    · exact ⟨rfl, rfl, rfl, rfl⟩
    · exact Quiet.refl s

theorem quiet_skipEntry (s : ExecutionSequence) (mode : ScopeMode) : Quiet s (s.skipEntry mode) := by
  unfold skipEntry
  split
  · split <;> exact ⟨rfl, rfl, rfl, rfl⟩
  · exact Quiet.refl s

/-- A start changes the times of the sequence and of its active entry only. -/
theorem started_eq (s : ExecutionSequence) (now now' : Timespec) :
    ∃ startedAt timespec, s.started now now' = {s with
      executing := true
      startedAt := startedAt
      remaining := s.remaining.modifyHead fun entry => {entry with timespec := timespec}} := by
  obtain ⟨startedAt, hsequence⟩ : ∃ startedAt, (if s.passed = [] then
      ({s with executing := true} : ExecutionSequence).onSequenceStarted now else {s with executing := true}) =
        {s with executing := true, startedAt := startedAt} := by
    split
    · rw [onSequenceStarted]
      split
      · split <;> exact ⟨_, rfl⟩
      · exact ⟨_, rfl⟩
    · exact ⟨_, rfl⟩
  rw [started, hsequence, onEntryStarted]
  cases s.remaining with
  | nil => exact ⟨startedAt, 0, rfl⟩
  | cons entry rest =>
    by_cases hcallback : entry.callback = true
    · exact ⟨startedAt, _, if_pos hcallback⟩
    · exact ⟨startedAt, entry.timespec, if_neg hcallback⟩

/-- The active entry is still the same when it is started. -/
theorem started_spec (s : ExecutionSequence) (now now' : Timespec) :
    (s.started now now').executing = true ∧ (s.started now now').incomplete = s.incomplete ∧
      (s.started now now').passed = s.passed ∧
      (s.started now now').remainingRepeatCount = s.remainingRepeatCount ∧
      (s.started now now').activeEntry.map ExecutionEntry.id = s.activeEntry.map ExecutionEntry.id := by
  obtain ⟨startedAt, timespec, heq⟩ := s.started_eq now now'
  rw [heq, incomplete, incomplete, activeEntry, activeEntry]
  cases s.remaining <;> exact ⟨rfl, rfl, rfl, rfl, rfl⟩

/-- A hook is never added before the active entry. -/
theorem quiet_addHook (s : ExecutionSequence) (h : s.incomplete = true) (tag : HookTag) (entry : ExecutionEntry) :
    Quiet s (s.addHook tag entry) := by
  obtain ⟨active, rest, hremaining⟩ := List.exists_cons_of_ne_nil (incomplete_iff.mp h)
  cases tag <;> exact ⟨rfl, by simp [addHook, activeEntry, hremaining], rfl, rfl⟩

theorem completeEntry_executing (h : s.incomplete = true) : s.completeEntry.executing = false := by
  obtain ⟨active, rest, hremaining⟩ := List.exists_cons_of_ne_nil (incomplete_iff.mp h)
  simp only [completeEntry, hremaining]
  split
  · split <;> rfl
  · rfl

/-- Completing an entry leaves the entries what they are. -/
theorem completeEntry_entries (s : ExecutionSequence) : s.completeEntry.entries = s.entries := by
  rw [completeEntry]
  split
  · rfl
  · rename_i entry rest hremaining
    dsimp only
    split
    · split <;> simp [entries, skipPast]
    · simp [entries, hremaining]

theorem reset_incomplete (h : s.entries ≠ []) : s.reset.incomplete = true := by
  rw [entries] at h
  obtain ⟨first, rest, hentries⟩ := List.exists_cons_of_ne_nil h
  simp [reset, hentries, incomplete, activeEntry, init]

end ExecutionSequence

/-! ### Callbacks -/

/-- What stands still while callbacks do as they like. -/
structure Execution.Calm (e e' : Execution) : Prop where
  groups : e'.groups = e.groups
  groupIndex : e'.groupIndex = e.groupIndex
  length : e'.sequences.length = e.sequences.length
  sequences : ∀ (i : Nat) (s s' : ExecutionSequence), e.sequences[i]? = some s → e'.sequences[i]? = some s' →
    ExecutionSequence.Quiet s s'

namespace Execution

theorem Calm.refl (e : Execution) : Calm e e := by
  refine ⟨rfl, rfl, rfl, ?_⟩
  intro i s s' hs hs'
  cases hs.symm.trans hs'
  exact .refl s

variable {e e' : Execution} {i : Nat}

theorem getElem?_of_length (h : e'.sequences.length = e.sequences.length)
    {s' : ExecutionSequence} (hi : e'.sequences[i]? = some s') : ∃ s, e.sequences[i]? = some s := by
  have hlt := (List.getElem?_eq_some_iff.mp hi).choose
  exact ⟨_, List.getElem?_eq_getElem (h ▸ hlt)⟩

theorem Calm.trans {e₁ e₂ e₃ : Execution} (h₁ : Calm e₁ e₂) (h₂ : Calm e₂ e₃) : Calm e₁ e₃ where
  groups := h₂.groups.trans h₁.groups
  groupIndex := h₂.groupIndex.trans h₁.groupIndex
  length := h₂.length.trans h₁.length
  sequences i s s' hs hs' := by
    obtain ⟨s₂, hs₂⟩ := getElem?_of_length h₂.length hs'
    exact (h₁.sequences i s s₂ hs hs₂).trans (h₂.sequences i s₂ s' hs₂ hs')

theorem Calm.map_eq (h : Calm e e') {α : Type} (p : ExecutionSequence → α)
    (hp : ∀ s s', ExecutionSequence.Quiet s s' → p s' = p s) : e'.sequences.map p = e.sequences.map p := by
  apply List.ext_getElem (by simp [h.length])
  intro i hi' hi
  rw [List.length_map] at hi hi'
  rw [List.getElem_map, List.getElem_map]
  exact hp _ _ (h.sequences i _ _ (List.getElem?_eq_getElem hi) (List.getElem?_eq_getElem hi'))

theorem executing_congr (hgroup : e'.activeGroup.map ConcurrentGroup.range = e.activeGroup.map ConcurrentGroup.range)
    (hmap : e'.sequences.map ExecutionSequence.executing = e.sequences.map ExecutionSequence.executing) :
    e'.executing = e.executing := by
  rw [executing, executing]
  cases hg : e.activeGroup with
  | none =>
    rw [hg, Option.map_none, Option.map_eq_none_iff] at hgroup
    rw [hgroup]
  | some g =>
    rw [hg, Option.map_some, Option.map_eq_some_iff] at hgroup
    obtain ⟨g', hg', hrange⟩ := hgroup
    rw [hg']
    dsimp only
    rw [ConcurrentGroup.sequences_congr hrange]
    exact ConcurrentGroup.countP_sequences_congr hmap g

theorem activeGroup_congr (hgroups : e'.groups = e.groups) (hindex : e'.groupIndex = e.groupIndex) :
    e'.activeGroup = e.activeGroup := by
  rw [activeGroup, activeGroup, hgroups, hindex]

theorem Calm.executing (h : Calm e e') : e'.executing = e.executing :=
  executing_congr (congrArg _ (activeGroup_congr h.groups h.groupIndex)) (h.map_eq _ fun _ _ hquiet => hquiet.executing)

variable {f : ExecutionSequence → ExecutionSequence}

theorem calm_modifySequence (e : Execution) (i : Nat)
    (hf : ∀ s, e.sequences[i]? = some s → ExecutionSequence.Quiet s (f s)) : Calm e (e.modifySequence i f) := by
  refine ⟨rfl, rfl, List.length_modify .., ?_⟩
  intro j s s' hs hs'
  simp only [modifySequence, List.getElem?_modify, hs, Option.map_eq_map, Option.map_some,
    Option.some.injEq] at hs'
  subst hs'
  by_cases hij : i = j
  · subst hij
    simpa using hf s hs
  · rw [if_neg hij]
    exact .refl s

/-- What a token must be to be accepted. -/
theorem validSequence_eq_some {data : RefData} (h : e.validSequence data = some i) :
    ∃ g entryData s, e.activeGroup = some g ∧ data = .execution e.groupIndex (some entryData) ∧
      i = g.sequenceStart + entryData.sequenceIndex ∧ g.Has i ∧ e.sequences[i]? = some s ∧
      s.remainingRepeatCount = entryData.remainingRepeatCount ∧
      s.activeEntry.map ExecutionEntry.id = some entryData.entry := by
  unfold validSequence at h
  split at h
  · rename_i index entryData
    split at h
    · cases h
    · rename_i g hg
      dsimp only at h
      split at h
      · cases h
      · rename_i hindex
        split at h
        · cases h
        · rename_i hend
          split at h
          · cases h
          · rename_i s hs
            split at h
            · cases h
            · rename_i hrepeat
              split at h
              · cases h
              · rename_i hentry
                cases h
                simp only [ne_eq, Decidable.not_not] at hindex hrepeat hentry
                subst hindex
                exact ⟨g, entryData, s, hg, rfl, rfl, ⟨by omega, by omega⟩, hs, hrepeat, hentry⟩
  · cases h

theorem calm_modifyValid (e : Execution) (data : RefData)
    (hf : ∀ s, s.incomplete = true → ExecutionSequence.Quiet s (f s)) : Calm e (e.modifyValid data f) := by
  rw [modifyValid]
  split
  · exact .refl e
  · rename_i i hvalid
    obtain ⟨g, entryData, s, -, -, -, -, hs, -, hentry⟩ := validSequence_eq_some hvalid
    apply calm_modifySequence
    intro s' hs'
    cases hs.symm.trans hs'
    apply hf
    rw [ExecutionSequence.incomplete]
    cases hactive : s.activeEntry with
    | none => rw [hactive] at hentry; cases hentry
    | some entry => rfl

/-- A token for what runs now: it tells one sequence if the group has only one. -/
def Current (e : Execution) (g : Nat) (d : EntryData) : Prop :=
  g = e.groupIndex ∧ d.sequenceIndex = 0 ∧ ∃ a, e.activeGroup = some a ∧ (a.sequences e.sequences).length = 1

theorem currentStateData_eq {g : Nat} {d : EntryData} (h : e.currentStateData = .execution g (some d)) : e.Current g d := by
  rw [currentStateData] at h
  split at h
  · cases h
  · rename_i a ha
    split at h
    · rename_i s hs
      split at h
      · cases h
      · cases h
        exact ⟨rfl, rfl, a, ha, by rw [hs]; rfl⟩
    · cases h

/-- A token for the sequence at a place of the active group. -/
def For (e : Execution) (i g : Nat) (d : EntryData) : Prop :=
  g = e.groupIndex ∧ ∃ a, e.activeGroup = some a ∧ i = a.sequenceStart + d.sequenceIndex

theorem Current.for {g : Nat} {d : EntryData} (h : e.Current g d) {a : ConcurrentGroup}
    (ha : e.activeGroup = some a) (hi : a.Has i) (hlt : i < e.sequences.length) : e.For i g d := by
  obtain ⟨hg, hd, a', ha', hlength⟩ := h
  cases ha.symm.trans ha'
  obtain ⟨hstart, hend⟩ := hi
  rw [ConcurrentGroup.sequences, List.length_take, List.length_drop] at hlength
  exact ⟨hg, a, ha, by omega⟩

theorem Calm.current (h : Calm e e') (g : Nat) (d : EntryData) :
    Current e' g d ↔ Current e g d := by
  rw [Current, Current, h.groupIndex, activeGroup_congr h.groups h.groupIndex]
  simp only [ConcurrentGroup.sequences, List.length_take, List.length_drop, h.length]

end Execution

namespace BunTest

/-- The timer wakes the runner up by then, or it is going to look at all deadlines anyway. -/
def Covers (b : BunTest) (deadline : Timespec) : Prop :=
  .start ∈ b.resultQueue ∨ (b.timer ≠ 0 ∧ b.timer ≤ deadline)

/-- A token that is queued, or that a callback was given. -/
def Token (b : BunTest) (data : RefData) : Prop := data ∈ b.resultQueue ∨ .callbackQueued data ∈ b.log

/-- What a mark is that is left by a callback. -/
def Inside (b : BunTest) (m : Mark) : Prop :=
  (∃ data, m = .accepted data) ∨
    ∃ moment, m = .returned moment ∧ moment.nested = true ∧ moment.phase = b.phase ∧ b.execution.Calm moment.execution

structure Calm (b b' : BunTest) : Prop where
  execution : b.execution.Calm b'.execution
  phase : b'.phase = b.phase
  inRunLoop : b'.inRunLoop = b.inRunLoop
  maxConcurrency : b'.maxConcurrency = b.maxConcurrency
  tokens : ∀ g d, b'.Token (.execution g (some d)) → b.Token (.execution g (some d)) ∨ b.execution.Current g d
  covers : ∀ deadline, b.Covers deadline → b'.Covers deadline
  log : ∃ marks, b'.log = b.log ++ marks ∧ ∀ m ∈ marks, b.Inside m

theorem Calm.refl (b : BunTest) : b.Calm b where
  execution := .refl _
  phase := rfl
  inRunLoop := rfl
  maxConcurrency := rfl
  tokens _ _ := .inl
  covers _ h := h
  log := ⟨[], (List.append_nil _).symm, fun _ hm => absurd hm List.not_mem_nil⟩

theorem Calm.trans {b₁ b₂ b₃ : BunTest} (h₁ : b₁.Calm b₂) (h₂ : b₂.Calm b₃) : b₁.Calm b₃ where
  execution := h₁.execution.trans h₂.execution
  phase := h₂.phase.trans h₁.phase
  inRunLoop := h₂.inRunLoop.trans h₁.inRunLoop
  maxConcurrency := h₂.maxConcurrency.trans h₁.maxConcurrency
  tokens g d h := by
    rcases h₂.tokens g d h with h | h
    · exact h₁.tokens g d h
    · exact .inr ((h₁.execution.current g d).mp h)
  covers deadline h := h₂.covers deadline (h₁.covers deadline h)
  log := by
    obtain ⟨marks₁, hlog₁, hmarks₁⟩ := h₁.log
    obtain ⟨marks₂, hlog₂, hmarks₂⟩ := h₂.log
    refine ⟨marks₁ ++ marks₂, by rw [hlog₂, hlog₁, List.append_assoc], ?_⟩
    intro m hm
    rcases List.mem_append.mp hm with hm | hm
    · exact hmarks₁ m hm
    · apply (hmarks₂ m hm).imp id
      intro ⟨moment, hm, hnested, hphase, hcalm⟩
      exact ⟨moment, hm, hnested, hphase.trans h₁.phase, h₁.execution.trans hcalm⟩

theorem calm_of_execution (b : BunTest) {e : Execution} (h : b.execution.Calm e) (nextEntry : Nat) :
    b.Calm {b with execution := e, nextEntry := nextEntry} :=
  ⟨h, rfl, rfl, rfl, fun _ _ => .inl, fun _ h => h, ⟨[], (List.append_nil _).symm, by simp⟩⟩

/-- Marks that are not for a token leave the tokens. -/
theorem calm_emit (b : BunTest) {m : Mark} (hm : b.Inside m) : b.Calm (b.emit m) where
  execution := .refl _
  phase := rfl
  inRunLoop := rfl
  maxConcurrency := rfl
  tokens g d h := by
    apply Or.inl (h.imp id _)
    intro h
    rcases List.mem_append.mp h with h | h
    · exact h
    · rw [List.mem_singleton] at h
      subst h
      rcases hm with ⟨data, hm⟩ | ⟨moment, hm, -⟩ <;> cases hm
  covers _ h := h
  log := ⟨[m], rfl, by simpa using hm⟩

theorem calm_accept (b : BunTest) (data : RefData) : b.Calm (b.accept data) := by
  rw [accept]
  split
  · exact .refl b
  · exact b.calm_emit (.inl ⟨data, rfl⟩)

theorem calm_modifyValid (b : BunTest) (data : RefData) {f : ExecutionSequence → ExecutionSequence}
    (hf : ∀ s, s.incomplete = true → ExecutionSequence.Quiet s (f s)) (nextEntry : Nat) :
    b.Calm {b.modifyValid data f with nextEntry := nextEntry} :=
  b.calm_of_execution (b.execution.calm_modifyValid data hf) nextEntry

variable {b : BunTest}

/-- A token comes from the log, or is for what runs. -/
theorem refData_eq {ref : Ref} {g : Nat} {d : EntryData} (h : b.refData ref = .execution g (some d)) :
    b.Token (.execution g (some d)) ∨ b.execution.Current g d := by
  cases ref with
  | queued mark =>
    rw [refData] at h
    split at h
    · rename_i data hmark
      subst h
      exact .inl (.inr (List.mem_of_getElem? hmark))
    · cases h
  | current => exact .inr (Execution.currentStateData_eq h)
  | collection => cases h

theorem calm_addResult (b : BunTest) (ref : Ref) : b.Calm (b.addResult (b.refData ref)) where
  execution := .refl _
  phase := rfl
  inRunLoop := rfl
  maxConcurrency := rfl
  tokens g d h := by
    rcases h with h | h
    · rcases List.mem_append.mp h with h | h
      · exact .inl (.inl h)
      · exact refData_eq (List.mem_singleton.mp h).symm
    · exact .inl (.inr h)
  covers _ h := h.imp (List.mem_append_left _) id
  log := ⟨[], (List.append_nil _).symm, by simp⟩

theorem calm_returned (b : BunTest) : b.Calm (b.returned true) :=
  b.calm_emit (.inr ⟨_, rfl, rfl, rfl, .refl _⟩)

theorem calm_timerCallback (h : b.phase = .execution) : b.Calm b.timerCallback := by
  have heq : b.timerCallback = {b with timer := 0, resultQueue := b.resultQueue ++ [.start]} := by
    simp [timerCallback, h, addResult]
  rw [heq]
  refine ⟨.refl _, rfl, rfl, rfl, ?_, fun _ _ => .inl (by simp), ⟨[], (List.append_nil _).symm, by simp⟩⟩
  intro g d h
  simpa [Token] using Or.inl (b := b.execution.Current g d) h

theorem calm_actInside (h : b.phase = .execution) (action : Action) : b.Calm (b.actInside action) := by
  cases action with
  | addResult ref => exact b.calm_addResult ref
  | uncaughtException ref =>
    simp only [actInside, onUncaughtException, h]
    exact (b.calm_accept _).trans
      (calm_modifyValid _ _ (fun s _ => s.quiet_handleUncaughtException) (b.accept (b.refData ref)).nextEntry)
  | addHook tag hasDoneParameter timeout =>
    simp only [actInside, addHook, h]
    exact b.calm_modifyValid _ (fun s hs => s.quiet_addHook hs tag _) _
  | incrementExpectCallCounter ref =>
    exact b.calm_modifyValid (b.refData ref)
      (f := fun s => {s with expectCallCount := min (s.expectCallCount + 1) (2 ^ 32 - 1)})
      (fun s _ => ⟨rfl, rfl, rfl, rfl⟩) b.nextEntry
  | expectAssertions ref assertions =>
    exact b.calm_modifyValid (b.refData ref) (f := fun s => {s with expectAssertions := assertions})
      (fun s _ => ⟨rfl, rfl, rfl, rfl⟩) b.nextEntry
  | timer =>
    rw [actInside]
    split
    · exact .refl b
    · exact (calm_timerCallback h).trans (calm_returned _)
  | run => exact b.calm_returned

theorem calm_actions (h : b.phase = .execution) (actions : List Action) :
    b.Calm (actions.foldl actInside b) := by
  induction actions generalizing b with
  | nil => exact .refl b
  | cons action actions ih =>
    have hcalm := calm_actInside h action
    exact hcalm.trans (ih (hcalm.phase.trans h))

theorem calm_updateMinTimeout (b : BunTest) (minTimeout : Timespec) :
    b.Calm (b.updateMinTimeout minTimeout) ∧
      (minTimeout ≠ 0 → (b.updateMinTimeout minTimeout).Covers minTimeout) := by
  rw [updateMinTimeout]
  split
  · rename_i hless
    rw [lessIgnoreEpoch] at hless
    refine ⟨⟨.refl _, rfl, rfl, rfl, fun _ _ => .inl, ?_, ⟨[], (List.append_nil _).symm, by simp⟩⟩, ?_⟩
    · intro deadline hcovers
      apply hcovers.imp id
      intro ⟨htimer, hle⟩
      show minTimeout ≠ 0 ∧ minTimeout ≤ deadline
      grind
    · intro hne
      exact .inr ⟨hne, Nat.le_refl _⟩
  · rename_i hless
    rw [lessIgnoreEpoch] at hless
    refine ⟨.refl b, ?_⟩
    intro hne
    right
    grind

/-- What `run_test_callback` does, and that the timer covers the deadline then. -/
theorem runTestCallback_calm (w : World) (h : b.phase = .execution) (timeout : Timespec) :
    b.Calm (b.runTestCallback w timeout).2 ∧ (timeout ≠ 0 → (b.runTestCallback w timeout).2.Covers timeout) := by
  obtain ⟨hcalm, hcovers⟩ := b.calm_updateMinTimeout timeout
  have hcalls : (b.updateMinTimeout timeout).Calm
      {b.updateMinTimeout timeout with calls := (b.updateMinTimeout timeout).calls + 1} :=
    ⟨.refl _, rfl, rfl, rfl, fun _ _ => .inl, fun _ h => h, ⟨[], (List.append_nil _).symm, by simp⟩⟩
  have hactions := hcalls.trans (calm_actions (hcalls.phase.trans (hcalm.phase.trans h))
    (w.callback (b.updateMinTimeout timeout).calls).actions)
  exact ⟨hcalm.trans hactions, fun hne => hactions.covers _ (hcovers hne)⟩

end BunTest

/-! ### The invariant -/

def Mark.completes (i : Nat) : Mark → Bool
  | .sequenceCompleted j => i = j
  | _ => false

/-- The timer is set no later than the deadline of an executing entry. -/
def Moment.InTime (m : Moment) : Prop :=
  ∀ g, m.execution.activeGroup = some g → ∀ s ∈ g.sequences m.execution.sequences, s.executing = true →
    ∀ entry, s.activeEntry = some entry → entry.timespec ≠ 0 → m.timer ≠ 0 ∧ m.timer ≤ entry.timespec

/-- When `run` returns and there is nothing to do, something is awaited; and the timer is set for
it, unless the queue is being taken further up. -/
def Moment.Wakes (m : Moment) : Prop :=
  m.phase = .execution → m.resultQueue = [] → 0 < m.execution.executing ∧ (m.nested = false → m.InTime)

/-- The active group counts its sequences that are not complete. -/
def Execution.Counted (e : Execution) : Prop :=
  ∀ g, e.activeGroup = some g →
    g.remainingIncompleteEntries = (g.sequences e.sequences).countP ExecutionSequence.incomplete

theorem Execution.Calm.counted {e e' : Execution} (h : Calm e e') (hcounted : e.Counted) : e'.Counted := by
  intro g hg
  rw [activeGroup_congr h.groups h.groupIndex] at hg
  rw [hcounted g hg]
  exact (ConcurrentGroup.countP_sequences_congr (h.map_eq _ fun _ _ hquiet => hquiet.incomplete) g).symm

namespace BunTest

/-- How often `on_sequence_completed` was called for a sequence. -/
def completions (b : BunTest) (i : Nat) : Nat := b.log.countP (Mark.completes i)

def HasStarted (b : BunTest) (group : Nat) : Prop := .groupStarted group ∈ b.log

/-- A group before it was left for one behind it. -/
def Skipped (b : BunTest) (group : Nat) : Prop :=
  ∃ j remaining next, .groupCompleted j remaining next ∈ b.log ∧ j < group ∧ group < next

structure GroupOk (b : BunTest) (j : Nat) (g : ConcurrentGroup) : Prop where
  remaining : g.remainingIncompleteEntries =
    (g.sequences b.execution.sequences).countP ExecutionSequence.incomplete
  ahead : b.execution.groupIndex < j → g.executing = false ∧ g.nextSequenceIndex = 0 ∧ ¬ b.HasStarted j
  active : j = b.execution.groupIndex → (b.HasStarted j ↔ g.executing = true)

/-- A sequence of the `j`-th group, at place `p` in it. -/
structure SequenceOk (b : BunTest) (k j p i : Nat) (s : ExecutionSequence) : Prop where
  executing : s.executing = true → s.incomplete = true
  completions : b.completions i = if s.incomplete then 0 else 1
  behind : j < b.execution.groupIndex → s.executing = false ∧ (s.incomplete = false ↔ b.HasStarted j)
  ahead : b.execution.groupIndex < j → s.executing = false ∧ s.incomplete = true
  started : j = b.execution.groupIndex → p < k → s.executing = true ∨ s.incomplete = false
  fresh : j = b.execution.groupIndex → k ≤ p → s.executing = false ∧ s.incomplete = true

structure MarksOk (b : BunTest) : Prop where
  concurrency : b.maxConcurrency ≠ 0 → ∀ i n, .entryStarted i n ∈ b.log → n ≤ b.maxConcurrency
  underflow : .underflow ∉ b.log
  begun : ∀ j, b.HasStarted j → j ≤ b.execution.groupIndex
  left : ∀ j r n, .groupCompleted j r n ∈ b.log → r = 0 ∧ n ≤ b.execution.groupIndex ∧
    ∀ j', j < j' → j' < n → ¬ b.HasStarted j'
  passed : ∀ j < b.execution.groupIndex, b.HasStarted j ∨ b.Skipped j
  moments : ∀ m, .returned m ∈ b.log → m.Wakes ∧ m.execution.Counted

/-- The sequence that is being stepped. -/
structure IsHole (b : BunTest) (k i : Nat) (s : ExecutionSequence) : Prop where
  active : ∃ g, b.execution.activeGroup = some g ∧ g.Has i ∧ i < g.sequenceStart + k
  sequence : b.execution.sequences[i]? = some s
  incomplete : s.incomplete = true
  completions : b.completions i = 0

/-- The slots that are taken: one is reserved for the sequence that is being stepped. -/
def slots (b : BunTest) (hole : Option Nat) : Nat :=
  match hole with
  | none => b.execution.executing
  | some i => (b.execution.modifySequence i fun s => {s with executing := true}).executing

/-- What was loaded: an order, and how many sequences may be executing at once, if it is not 0. -/
structure Loaded extends Order where
  maxConcurrency : Nat

/-- The groups part the sequences, and a failure skips to a later group. -/
structure Loaded.Grouped (o : Loaded) : Prop where
  partition : Partition 0 o.groups o.sequences.length
  ahead : ∀ j (g : ConcurrentGroup), o.groups[j]? = some g → j < g.failureSkipTo

/-- The first `k` sequences of the active group are started, and one, if any, is being stepped. -/
structure Inv (o : Loaded) (b : BunTest) (k : Nat) (hole : Option Nat) : Prop where
  phase : b.phase = .execution
  limit : b.maxConcurrency = o.maxConcurrency
  ranges : b.execution.groups.map ConcurrentGroup.range = o.groups.map ConcurrentGroup.range
  length : b.execution.sequences.length = o.sequences.length
  groups : ∀ j g, b.execution.groups[j]? = some g → b.GroupOk j g
  next : ∀ g, b.execution.activeGroup = some g →
    g.nextSequenceIndex ≤ k ∧ k ≤ g.sequenceEnd - g.sequenceStart
  sequences : ∀ j g, b.execution.groups[j]? = some g → ∀ i s, g.Has i →
    b.execution.sequences[i]? = some s → hole ≠ some i → b.SequenceOk k j (i - g.sequenceStart) i s
  stepped : ∀ i, hole = some i → ∃ s, b.IsHole k i s
  concurrency : b.maxConcurrency ≠ 0 → b.slots hole ≤ b.maxConcurrency
  marks : b.MarksOk

/-! ### What keeps it -/

/-- Marks that have nothing to do with groups. -/
def Harmless (maxConcurrency : Nat) : Mark → Prop
  | .entryStarted _ executing => maxConcurrency ≠ 0 → executing ≤ maxConcurrency
  | .callbackQueued _ | .accepted _ | .entryCompleted _ | .sequenceRetried _ | .sequenceRepeated _
  | .sequenceCompleted _ => True
  | .returned m => m.Wakes ∧ m.execution.Counted
  | .groupStarted _ | .groupCompleted _ _ _ | .underflow => False

variable {b b' b₁ b₂ b₃ : BunTest} {i k : Nat} {hole : Option Nat} {o : Loaded} {s : ExecutionSequence} {a : ConcurrentGroup}

theorem completions_of_log {marks : List Mark} (hlog : b'.log = b.log ++ marks)
    (hmarks : ∀ m ∈ marks, m.completes i = false) : b'.completions i = b.completions i := by
  rw [completions, hlog, List.countP_append, completions, Nat.add_eq_left, List.countP_eq_zero]
  intro m hm
  simp [hmarks m hm]

section Harmless
variable {b b' : BunTest} {marks : List Mark} (hlog : b'.log = b.log ++ marks)
  (hmarks : ∀ m ∈ marks, Harmless b.maxConcurrency m)
include hlog hmarks

theorem hasStarted_of_harmless (j : Nat) : b'.HasStarted j ↔ b.HasStarted j := by
  rw [HasStarted, HasStarted, hlog, List.mem_append, or_iff_left_iff_imp]
  intro hm
  exact (hmarks _ hm).elim

theorem marksOk_of_harmless (hmax : b'.maxConcurrency = b.maxConcurrency)
    (hindex : b'.execution.groupIndex = b.execution.groupIndex) (h : b.MarksOk) : b'.MarksOk where
  concurrency hne i n hm := by
    rw [hmax] at hne ⊢
    rw [hlog] at hm
    rcases List.mem_append.mp hm with hm | hm
    · exact h.concurrency hne i n hm
    · exact hmarks _ hm hne
  underflow hm := by
    rw [hlog] at hm
    rcases List.mem_append.mp hm with hm | hm
    · exact h.underflow hm
    · exact hmarks _ hm
  begun j := by
    rw [hindex, hasStarted_of_harmless hlog hmarks]
    exact h.begun j
  left j r n hm := by
    rw [hlog] at hm
    simp only [hindex, hasStarted_of_harmless hlog hmarks]
    rcases List.mem_append.mp hm with hm | hm
    · exact h.left j r n hm
    · exact (hmarks _ hm).elim
  passed j hj := by
    rw [hindex] at hj
    rw [hasStarted_of_harmless hlog hmarks]
    apply (h.passed j hj).imp id
    intro ⟨j₀, r, n, hm, hlt⟩
    exact ⟨j₀, r, n, hlog ▸ List.mem_append_left _ hm, hlt⟩
  moments m hm := by
    rw [hlog] at hm
    rcases List.mem_append.mp hm with hm | hm
    · exact h.moments m hm
    · exact hmarks _ hm

end Harmless

/-- A change that starts, completes or moves on no sequence but the one that is being stepped,
and does not complete that one. -/
structure Minor (b b' : BunTest) (hole : Option Nat) : Prop where
  phase : b'.phase = b.phase
  maxConcurrency : b'.maxConcurrency = b.maxConcurrency
  groups : b'.execution.groups = b.execution.groups
  groupIndex : b'.execution.groupIndex = b.execution.groupIndex
  length : b'.execution.sequences.length = b.execution.sequences.length
  others : ∀ (i : Nat) (s s' : ExecutionSequence), hole ≠ some i → b.execution.sequences[i]? = some s →
    b'.execution.sequences[i]? = some s' → ExecutionSequence.Quiet s s'
  stepped : ∀ (i : Nat) (s s' : ExecutionSequence), hole = some i → b.execution.sequences[i]? = some s →
    b'.execution.sequences[i]? = some s' → s.incomplete = true → s'.incomplete = true
  log : ∃ marks, b'.log = b.log ++ marks ∧ ∀ m ∈ marks,
    Harmless b.maxConcurrency m ∧ ∀ i, m.completes i = false

theorem Minor.map_eq (h : b.Minor b' hole) (p : ExecutionSequence → Bool)
    (hp : ∀ s s', ExecutionSequence.Quiet s s' → p s' = p s)
    (hstepped : ∀ (i : Nat) (s s' : ExecutionSequence), hole = some i → b.execution.sequences[i]? = some s →
      b'.execution.sequences[i]? = some s' → p s' = p s) :
    b'.execution.sequences.map p = b.execution.sequences.map p := by
  apply List.ext_getElem (by simp [h.length])
  intro i hi' hi
  rw [List.length_map] at hi hi'
  rw [List.getElem_map, List.getElem_map]
  have hs := List.getElem?_eq_getElem hi
  have hs' := List.getElem?_eq_getElem hi'
  by_cases hhole : hole = some i
  · exact hstepped i _ _ hhole hs hs'
  · exact hp _ _ (h.others i _ _ hhole hs hs')

theorem Minor.slots (h : b.Minor b' hole) : b'.slots hole = b.slots hole := by
  cases hole with
  | none =>
    apply Execution.executing_congr (congrArg _ (Execution.activeGroup_congr h.groups h.groupIndex))
    exact h.map_eq _ (fun s s' hquiet => hquiet.executing) fun i s s' hhole => by cases hhole
  | some i =>
    rw [BunTest.slots, BunTest.slots]
    apply Execution.executing_congr
    · exact congrArg _ (Execution.activeGroup_congr h.groups h.groupIndex)
    apply List.ext_getElem (by simp [Execution.modifySequence, h.length])
    intro j hj' hj
    simp only [Execution.modifySequence, List.length_map, List.length_modify] at hj hj'
    simp only [Execution.modifySequence, List.getElem_map, List.getElem_modify]
    by_cases hij : i = j
    · simp [hij]
    · simp only [hij, if_false]
      exact (h.others j _ _ (by simpa using hij) (List.getElem?_eq_getElem hj)
        (List.getElem?_eq_getElem hj')).executing

theorem Calm.minor (h : b.Calm b') (hexecuting : 0 < b.execution.executing)
    (hcounted : b.execution.Counted) : b.Minor b' hole where
  phase := h.phase
  maxConcurrency := h.maxConcurrency
  groups := h.execution.groups
  groupIndex := h.execution.groupIndex
  length := h.execution.length
  others i s s' _ := h.execution.sequences i s s'
  stepped i s s' _ hs hs' hinc := (h.execution.sequences i s s' hs hs').incomplete.trans hinc
  log := by
    obtain ⟨marks, hlog, hmarks⟩ := h.log
    refine ⟨marks, hlog, ?_⟩
    intro m hm
    rcases hmarks m hm with ⟨data, rfl⟩ | ⟨moment, rfl, hnested, -, hcalm⟩
    · exact ⟨trivial, fun _ => rfl⟩
    refine ⟨⟨?_, hcalm.counted hcounted⟩, fun _ => rfl⟩
    intro _ _
    refine ⟨?_, fun hnot => absurd hnot (by simp [hnested])⟩
    rw [hcalm.executing]
    exact hexecuting

theorem Inv.counted (h : Inv o b k hole) :
    b.execution.Counted :=
  fun g hg => (h.groups _ g hg).remaining

theorem Inv.minor (h : Inv o b k hole) (hm : b.Minor b' hole) : Inv o b' k hole := by
  obtain ⟨marks, hlog, hall⟩ := hm.log
  have hmarks := fun m hm => (hall m hm).1
  have hcompletions := fun i => completions_of_log hlog fun m hm => (hall m hm).2 i
  have hstarted := hasStarted_of_harmless hlog hmarks
  have hincomplete : b'.execution.sequences.map ExecutionSequence.incomplete =
      b.execution.sequences.map ExecutionSequence.incomplete := by
    apply hm.map_eq _ fun s s' hquiet => hquiet.incomplete
    intro i s s' hhole hs hs'
    obtain ⟨s₀, hs₀⟩ := h.stepped i hhole
    cases hs.symm.trans hs₀.sequence
    rw [hm.stepped i s s' hhole hs hs' hs₀.incomplete, hs₀.incomplete]
  have hgroup : b'.execution.activeGroup = b.execution.activeGroup := by
    rw [Execution.activeGroup, Execution.activeGroup, hm.groups, hm.groupIndex]
  refine ⟨hm.phase.trans h.phase, hm.maxConcurrency.trans h.limit, ?_, hm.length.trans h.length, ?_, ?_, ?_, ?_, ?_, ?_⟩
  · rw [hm.groups, h.ranges]
  · intro j g hg
    rw [hm.groups] at hg
    obtain ⟨hremaining, hahead, hactive⟩ := h.groups j g hg
    refine ⟨?_, ?_, ?_⟩
    · rw [hremaining, ConcurrentGroup.countP_sequences_congr hincomplete]
    · rwa [hm.groupIndex, hstarted]
    · rwa [hm.groupIndex, hstarted]
  · rw [hgroup]
    exact h.next
  · intro j g hg i s' hi hs' hhole
    rw [hm.groups] at hg
    obtain ⟨s, hs⟩ := Execution.getElem?_of_length hm.length hs'
    have hquiet := hm.others i s s' hhole hs hs'
    obtain ⟨hexec, hcompl, hbehind, hahead, hdone, hfresh⟩ := h.sequences j g hg i s hi hs hhole
    refine ⟨?_, ?_, ?_, ?_, ?_, ?_⟩
    · rwa [hquiet.executing, hquiet.incomplete]
    · rwa [hcompletions, hquiet.incomplete]
    · rwa [hm.groupIndex, hquiet.executing, hquiet.incomplete, hstarted]
    · rwa [hm.groupIndex, hquiet.executing, hquiet.incomplete]
    · rwa [hm.groupIndex, hquiet.executing, hquiet.incomplete]
    · rwa [hm.groupIndex, hquiet.executing, hquiet.incomplete]
  · intro i hhole
    obtain ⟨s, hactive, hs, hinc, hcompl⟩ := h.stepped i hhole
    obtain ⟨s', hs'⟩ := Execution.getElem?_of_length hm.length.symm hs
    exact ⟨s', hgroup ▸ hactive, hs', hm.stepped i s s' hhole hs hs' hinc, (hcompletions i).trans hcompl⟩
  · rw [hm.maxConcurrency, hm.slots]
    exact h.concurrency
  · exact marksOk_of_harmless hlog hmarks hm.maxConcurrency hm.groupIndex h.marks

theorem Minor.trans (h₁ : b₁.Minor b₂ hole) (h₂ : b₂.Minor b₃ hole) :
    b₁.Minor b₃ hole where
  phase := h₂.phase.trans h₁.phase
  maxConcurrency := h₂.maxConcurrency.trans h₁.maxConcurrency
  groups := h₂.groups.trans h₁.groups
  groupIndex := h₂.groupIndex.trans h₁.groupIndex
  length := h₂.length.trans h₁.length
  others i s s' hhole hs hs' := by
    obtain ⟨s₂, hs₂⟩ := Execution.getElem?_of_length h₂.length hs'
    exact (h₁.others i s s₂ hhole hs hs₂).trans (h₂.others i s₂ s' hhole hs₂ hs')
  stepped i s s' hhole hs hs' hinc := by
    obtain ⟨s₂, hs₂⟩ := Execution.getElem?_of_length h₂.length hs'
    exact h₂.stepped i s₂ s' hhole hs₂ hs' (h₁.stepped i s s₂ hhole hs hs₂ hinc)
  log := by
    obtain ⟨marks₁, hlog₁, hmarks₁⟩ := h₁.log
    obtain ⟨marks₂, hlog₂, hmarks₂⟩ := h₂.log
    refine ⟨marks₁ ++ marks₂, by rw [hlog₂, hlog₁, List.append_assoc], ?_⟩
    intro m hm
    rcases List.mem_append.mp hm with hm | hm
    · exact hmarks₁ m hm
    · rw [h₁.maxConcurrency] at hmarks₂
      exact hmarks₂ m hm

theorem minor_setSequence (b : BunTest) (i : Nat) (hs : s.incomplete = true) :
    b.Minor (b.setSequence i s) (some i) where
  phase := rfl
  maxConcurrency := rfl
  groups := rfl
  groupIndex := rfl
  length := List.length_set
  others j s₁ s₂ hhole hs₁ hs₂ := by
    have hne : i ≠ j := fun hij => hhole (congrArg some hij)
    simp only [setSequence, List.getElem?_set, hne, if_false] at hs₂
    cases hs₁.symm.trans hs₂
    exact .refl _
  stepped j s₁ s₂ hhole hs₁ hs₂ _ := by
    cases hhole
    simp only [setSequence, List.getElem?_set, if_true] at hs₂
    split at hs₂
    · cases hs₂
      exact hs
    · cases hs₂
  log := ⟨[], (List.append_nil _).symm, by simp⟩

theorem minor_emit (b : BunTest) (hole : Option Nat) {m : Mark} (hm : Harmless b.maxConcurrency m)
    (hcompletes : ∀ i, m.completes i = false) : b.Minor (b.emit m) hole where
  phase := rfl
  maxConcurrency := rfl
  groups := rfl
  groupIndex := rfl
  length := rfl
  others i s s' _ hs hs' := by
    cases hs.symm.trans hs'
    exact .refl _
  stepped i s s' _ hs hs' hinc := by
    cases hs.symm.trans hs'
    exact hinc
  log := ⟨[m], rfl, by simpa using ⟨hm, hcompletes⟩⟩

theorem minor_tick (b : BunTest) (hole : Option Nat) : b.Minor b.tick hole where
  phase := rfl
  maxConcurrency := rfl
  groups := rfl
  groupIndex := rfl
  length := rfl
  others i s s' _ hs hs' := by
    cases hs.symm.trans hs'
    exact .refl _
  stepped i s s' _ hs hs' hinc := by
    cases hs.symm.trans hs'
    exact hinc
  log := ⟨[], (List.append_nil _).symm, by simp⟩

/-! ### Opening and closing the hole -/

/-- What `advance_sequence` does when a sequence is done. -/
def completeSequence (b : BunTest) (g i : Nat) (s : ExecutionSequence) : BunTest :=
  ((b.setSequence i s).emit (.sequenceCompleted i)).modifyGroup g fun group =>
    {group with remainingIncompleteEntries := group.remainingIncompleteEntries - 1}

theorem executing_setSequence {g : ConcurrentGroup} (hg : b.execution.activeGroup = some g)
    (hi : g.Has i) (hs : b.execution.sequences[i]? = some s) (s' : ExecutionSequence) :
    (b.setSequence i s').execution.executing + (if s.executing then 1 else 0) =
      b.execution.executing + (if s'.executing then 1 else 0) := by
  have hg' : (b.setSequence i s').execution.activeGroup = some g := hg
  rw [Execution.executing, hg', Execution.executing, hg]
  exact g.countP_sequences_set _ hi hs s'

theorem slots_some {g : ConcurrentGroup} (hg : b.execution.activeGroup = some g)
    (hi : g.Has i) (hs : b.execution.sequences[i]? = some s) :
    b.slots (some i) + (if s.executing then 1 else 0) = b.execution.executing + 1 := by
  have hmodify : (b.execution.modifySequence i fun s => {s with executing := true}) =
      (b.setSequence i {s with executing := true}).execution := by
    have hlist : b.execution.sequences.modify i (fun s => {s with executing := true}) =
        b.execution.sequences.set i {s with executing := true} := by
      apply List.ext_getElem?
      intro j
      rw [List.getElem?_modify, List.getElem?_set]
      grind
    rw [Execution.modifySequence, hlist]
    rfl
  rw [slots, hmodify]
  exact executing_setSequence hg hi hs _

section Hole
variable {o : Loaded} (ho : Partition 0 o.groups o.sequences.length) {b : BunTest} {k : Nat}
include ho

theorem Inv.partition {hole : Option Nat} (h : Inv o b k hole) :
    Partition 0 b.execution.groups b.execution.sequences.length := by
  rw [h.length]
  exact ho.congr h.ranges

variable {i : Nat} {s : ExecutionSequence} {a : ConcurrentGroup}

/-- The sequence that was stepped waits for a result. -/
theorem Inv.close (h : Inv o b k (some i))
    (hs : b.execution.sequences[i]? = some s) (hexecuting : s.executing = true) : Inv o b k none := by
  obtain ⟨s₀, ⟨a, ha, hi, hik⟩, hs₀, hinc, hcompl⟩ := h.stepped i rfl
  cases hs.symm.trans hs₀
  refine ⟨h.phase, h.limit, h.ranges, h.length, h.groups, h.next, ?_, nofun, ?_, h.marks⟩
  · intro j g hg i' s' hi' hs' _
    by_cases hii : i = i'
    · subst hii
      cases hs.symm.trans hs'
      have hj : j = b.execution.groupIndex := (h.partition ho).group_eq hg ha hi' hi
      subst hj
      cases ha.symm.trans hg
      refine ⟨fun _ => hinc, ?_, fun hlt => absurd hlt (Nat.lt_irrefl _),
        fun hlt => absurd hlt (Nat.lt_irrefl _), fun _ _ => .inl hexecuting, ?_⟩
      · rw [hcompl, hinc, if_pos rfl]
      · intro _ hle
        have hstart := hi.1
        omega
    · exact h.sequences j g hg i' s' hi' hs' (by simpa using hii)
  · intro hne
    have hslots := slots_some ha hi hs
    rw [hexecuting, if_pos rfl] at hslots
    have hle := h.concurrency hne
    show b.execution.executing ≤ _
    omega

/-- The sequence that was stepped is done. -/
theorem Inv.finish {s' : ExecutionSequence} (h : Inv o b k (some i)) (hexecuting : s'.executing = false)
    (hcomplete : s'.incomplete = false) : Inv o (b.completeSequence b.execution.groupIndex i s') k none := by
  obtain ⟨s, ⟨a, ha, hi, hik⟩, hs, hinc, hcompl⟩ := h.stepped i rfl
  have hlog : (b.completeSequence b.execution.groupIndex i s').log = b.log ++ [.sequenceCompleted i] := rfl
  have hharmless : ∀ m ∈ [Mark.sequenceCompleted i], Harmless b.maxConcurrency m := by simp [Harmless]
  have hstarted := hasStarted_of_harmless hlog hharmless
  have hlt := (List.getElem?_eq_some_iff.mp hs).choose
  have hgroups : ∀ j g', (b.completeSequence b.execution.groupIndex i s').execution.groups[j]? = some g' →
      ∃ g, b.execution.groups[j]? = some g ∧ g' = if b.execution.groupIndex = j then
        {g with remainingIncompleteEntries := g.remainingIncompleteEntries - 1} else g := by
    intro j g' hg'
    simp only [completeSequence, modifyGroup, setSequence, emit, List.getElem?_modify] at hg'
    cases hg : b.execution.groups[j]? with
    | none => simp [hg] at hg'
    | some g => simp_all
  have hsequences : ∀ j s₁, (b.completeSequence b.execution.groupIndex i s').execution.sequences[j]? = some s₁ →
      (j = i ∧ s₁ = s') ∨ (j ≠ i ∧ b.execution.sequences[j]? = some s₁) := by
    intro j s₁ hs₁
    simp only [completeSequence, modifyGroup, setSequence, emit, List.getElem?_set] at hs₁
    grind
  refine ⟨h.phase, h.limit, ?_, ?_, ?_, ?_, ?_, nofun, ?_, ?_⟩
  · rw [← h.ranges]
    apply List.ext_getElem?
    intro j
    simp only [completeSequence, modifyGroup, setSequence, emit, List.getElem?_map, List.getElem?_modify]
    cases b.execution.groups[j]? with
    | none => rfl
    | some g =>
      simp only [Option.map_eq_map, Option.map_some]
      split <;> rfl
  · rw [← h.length]
    exact List.length_set
  · intro j g' hg'
    obtain ⟨g, hg, rfl⟩ := hgroups j g' hg'
    obtain ⟨hremaining, hahead, hactive⟩ := h.groups j g hg
    by_cases hj : b.execution.groupIndex = j
    · subst hj
      cases ha.symm.trans hg
      have hcount := a.countP_sequences_set ExecutionSequence.incomplete hi hs s'
      rw [hinc, hcomplete] at hcount
      rw [if_pos rfl]
      refine ⟨?_, fun hlt => absurd hlt (Nat.lt_irrefl _), fun _ => (hstarted _).trans (hactive rfl)⟩
      show a.remainingIncompleteEntries - 1 = (a.sequences (b.execution.sequences.set i s')).countP _
      rw [hremaining]
      simp only [Bool.false_eq_true, if_true, if_false] at hcount
      omega
    · rw [if_neg hj]
      refine ⟨?_, fun hlt => ?_, fun heq => absurd heq.symm hj⟩
      · have hnot : ¬ g.Has i := fun hi' => hj ((h.partition ho).group_eq ha hg hi hi')
        show _ = (g.sequences (b.execution.sequences.set i s')).countP _
        rw [ConcurrentGroup.sequences_set_of_not_has hnot, hremaining]
      · rw [hstarted]
        exact hahead hlt
  · intro g' hg'
    obtain ⟨g, hg, rfl⟩ := hgroups _ g' hg'
    have hnext := h.next g hg
    split <;> exact hnext
  · intro j g' hg' i' s₁ hi' hs₁ _
    obtain ⟨g, hg, rfl⟩ := hgroups j g' hg'
    have hi'g : g.Has i' := by split at hi' <;> exact hi'
    have hstart : (if b.execution.groupIndex = j then
        {g with remainingIncompleteEntries := g.remainingIncompleteEntries - 1} else g).sequenceStart =
        g.sequenceStart := by split <;> rfl
    rw [hstart]
    rcases hsequences i' s₁ hs₁ with ⟨rfl, rfl⟩ | ⟨hne, hs₁⟩
    · have hj : b.execution.groupIndex = j := (h.partition ho).group_eq ha hg hi hi'g
      subst hj
      cases ha.symm.trans hg
      refine ⟨by simp [hexecuting], ?_, fun hlt => absurd hlt (Nat.lt_irrefl _),
        fun hlt => absurd hlt (Nat.lt_irrefl _), fun _ _ => .inr hcomplete, ?_⟩
      · rw [hcomplete, completions, hlog, List.countP_append]
        rw [completions] at hcompl
        rw [hcompl]
        simp [Mark.completes]
      · intro _ hle
        have hstart := hi.1
        omega
    · have hcompletions : (b.completeSequence b.execution.groupIndex i s').completions i' = b.completions i' :=
        completions_of_log hlog (by simpa [Mark.completes] using hne)
      obtain ⟨hexec, hcompl', hbehind, hahead, hdone, hfresh⟩ :=
        h.sequences j g hg i' s₁ hi'g hs₁ (by simpa using hne.symm)
      refine ⟨hexec, hcompletions.trans hcompl', fun hlt => ?_, hahead, hdone, hfresh⟩
      rw [hstarted]
      exact hbehind hlt
  · intro hne
    have hslots := slots_some ha hi hs
    have hset := executing_setSequence ha hi hs s'
    rw [hexecuting] at hset
    have hle := h.concurrency hne
    have heq : (b.completeSequence b.execution.groupIndex i s').execution.executing =
        (b.setSequence i s').execution.executing := by
      refine Execution.executing_congr ?_ (by rfl)
      simp only [Execution.activeGroup, completeSequence, modifyGroup, setSequence, emit, List.getElem?_modify]
      cases b.execution.groups[b.execution.groupIndex]? with
      | none => rfl
      | some g => simp [ConcurrentGroup.range]
    show (b.completeSequence b.execution.groupIndex i s').execution.executing ≤ b.maxConcurrency
    simp only [Bool.false_eq_true, if_false] at hset
    omega
  · exact marksOk_of_harmless hlog hharmless rfl rfl h.marks

omit ho in
/-- The result of an executing sequence is there. -/
theorem Inv.resume (h : Inv o b k none)
    (ha : b.execution.activeGroup = some a) (hi : a.Has i) (hs : b.execution.sequences[i]? = some s)
    (hexecuting : s.executing = true) : Inv o b k (some i) := by
  have hok := h.sequences _ a ha i s hi hs nofun
  have hinc := hok.executing hexecuting
  refine ⟨h.phase, h.limit, h.ranges, h.length, h.groups, h.next, ?_, ?_, ?_, h.marks⟩
  · exact fun j g hg i' s' hi' hs' _ => h.sequences j g hg i' s' hi' hs' nofun
  · intro i' hi'
    cases hi'
    refine ⟨s, ⟨a, ha, hi, ?_⟩, hs, hinc, by rw [hok.completions, hinc, if_pos rfl]⟩
    have hstart := hi.1
    by_contra hle
    have hfresh := (hok.fresh rfl (by omega)).1
    rw [hexecuting] at hfresh
    cases hfresh
  · intro hne
    have hslots := slots_some ha hi hs
    rw [hexecuting, if_pos rfl] at hslots
    have hle := h.concurrency hne
    simp only [slots] at hle hslots ⊢
    omega

/-- The next sequence is started, if there is a slot left. -/
theorem Inv.start (h : Inv o b k none) (ha : b.execution.activeGroup = some a) (hk : k < a.sequenceEnd - a.sequenceStart)
    (hslot : b.maxConcurrency ≠ 0 → b.execution.executing < b.maxConcurrency) :
    Inv o b (k + 1) (some (a.sequenceStart + k)) := by
  have hi : a.Has (a.sequenceStart + k) := ⟨Nat.le_add_right _ _, by omega⟩
  obtain ⟨-, hend⟩ := (h.partition ho).end_le ha
  obtain ⟨s, hs⟩ : ∃ s, b.execution.sequences[a.sequenceStart + k]? = some s :=
    ⟨_, List.getElem?_eq_getElem (hi.2.trans_le hend)⟩
  have hok := h.sequences _ a ha _ s hi hs nofun
  obtain ⟨hexecuting, hinc⟩ := hok.fresh rfl (by omega)
  refine ⟨h.phase, h.limit, h.ranges, h.length, h.groups, ?_, ?_, ?_, ?_, h.marks⟩
  · intro g hg
    cases ha.symm.trans hg
    have hnext := (h.next a ha).1
    exact ⟨by omega, hk⟩
  · intro j g hg i s' hi' hs' hhole
    obtain ⟨hexec, hcompl, hbehind, hahead, hdone, hfresh⟩ := h.sequences j g hg i s' hi' hs' nofun
    refine ⟨hexec, hcompl, hbehind, hahead, ?_, fun hj hle => hfresh hj (by omega)⟩
    intro hj hlt
    subst hj
    cases ha.symm.trans hg
    have hne : i ≠ a.sequenceStart + k := fun heq => hhole (congrArg some heq.symm)
    have hstart := hi'.1
    exact hdone rfl (by omega)
  · intro i hhole
    cases hhole
    exact ⟨s, ⟨a, ha, hi, by omega⟩, hs, hinc, by rw [hok.completions, hinc, if_pos rfl]⟩
  · intro hne
    have hslots := slots_some ha hi hs
    rw [hexecuting] at hslots
    have hlt := hslot hne
    simp only [Bool.false_eq_true, if_false] at hslots
    omega

end Hole

/-- What does not change while the sequences of a group are stepped. -/
structure Frame (b b' : BunTest) : Prop where
  maxConcurrency : b'.maxConcurrency = b.maxConcurrency
  groupIndex : b'.execution.groupIndex = b.execution.groupIndex
  groups : b'.execution.groups.map (fun g => (g.range, g.nextSequenceIndex, g.executing)) =
    b.execution.groups.map fun g => (g.range, g.nextSequenceIndex, g.executing)
  length : b'.execution.sequences.length = b.execution.sequences.length

theorem Frame.refl (b : BunTest) : b.Frame b := ⟨rfl, rfl, rfl, rfl⟩

theorem Frame.trans (h₁ : b₁.Frame b₂) (h₂ : b₂.Frame b₃) : b₁.Frame b₃ :=
  ⟨h₂.maxConcurrency.trans h₁.maxConcurrency, h₂.groupIndex.trans h₁.groupIndex, h₂.groups.trans h₁.groups,
    h₂.length.trans h₁.length⟩

theorem Frame.activeGroup (h : b.Frame b')
    (ha : b.execution.activeGroup = some a) : ∃ a', b'.execution.activeGroup = some a' ∧ a'.range = a.range ∧
      a'.nextSequenceIndex = a.nextSequenceIndex ∧ a'.executing = a.executing := by
  have hget := congrArg (fun l => l[b.execution.groupIndex]?) h.groups
  rw [Execution.activeGroup] at ha ⊢
  simp only [List.getElem?_map, ha, Option.map_some, Option.map_eq_some_iff, Prod.mk.injEq] at hget
  rw [h.groupIndex]
  exact hget

/-- What does not change outside of a sequence that is stepped. -/
structure Steps (b b' : BunTest) (i : Nat) : Prop extends Frame b b' where
  others : ∀ (j : Nat) (s s' : ExecutionSequence), j ≠ i → b.execution.sequences[j]? = some s →
    b'.execution.sequences[j]? = some s' → ExecutionSequence.Quiet s s'
  tokens : ∀ g d, b'.Token (.execution g (some d)) → b.Token (.execution g (some d)) ∨ b.execution.For i g d
  covers : ∀ deadline, b.Covers deadline → b'.Covers deadline

theorem Frame.for (h : b.Frame b') {i g : Nat} {d : EntryData} (hfor : b.execution.For i g d) :
    b'.execution.For i g d := by
  obtain ⟨hg, a, ha, hi⟩ := hfor
  obtain ⟨a', ha', hrange, -⟩ := h.activeGroup ha
  have hstart : a'.sequenceStart = a.sequenceStart := congrArg Prod.fst hrange
  exact ⟨hg.trans h.groupIndex.symm, a', ha', by rw [hi, hstart]⟩

theorem Frame.symm (h : b.Frame b') : b'.Frame b :=
  ⟨h.maxConcurrency.symm, h.groupIndex.symm, h.groups.symm, h.length.symm⟩

theorem Steps.refl (b : BunTest) (i : Nat) : b.Steps b i where
  toFrame := .refl b
  others j s s' _ hs hs' := by
    cases hs.symm.trans hs'
    exact .refl _
  tokens _ _ := .inl
  covers _ h := h

theorem Steps.trans (h₁ : b₁.Steps b₂ i) (h₂ : b₂.Steps b₃ i) : b₁.Steps b₃ i where
  toFrame := h₁.toFrame.trans h₂.toFrame
  others j s s' hne hs hs' := by
    obtain ⟨s₂, hs₂⟩ := Execution.getElem?_of_length h₂.length hs'
    exact (h₁.others j s s₂ hne hs hs₂).trans (h₂.others j s₂ s' hne hs₂ hs')
  tokens g d h := by
    rcases h₂.tokens g d h with h | h
    · exact h₁.tokens g d h
    · exact .inr (h₁.toFrame.symm.for h)
  covers deadline h := h₂.covers deadline (h₁.covers deadline h)

theorem Calm.steps (h : b.Calm b') (ha : b.execution.activeGroup = some a)
    (hi : a.Has i) (hlt : i < b.execution.sequences.length) : b.Steps b' i where
  toFrame := ⟨h.maxConcurrency, h.execution.groupIndex, by rw [h.execution.groups], h.execution.length⟩
  others j s s' _ := h.execution.sequences j s s'
  tokens g d htoken := (h.tokens g d htoken).imp id fun hcurrent => hcurrent.for ha hi hlt
  covers := h.covers

theorem steps_setSequence (b : BunTest) (i : Nat) (s : ExecutionSequence) : b.Steps (b.setSequence i s) i where
  toFrame := ⟨rfl, rfl, rfl, List.length_set⟩
  others j s₁ s₂ hne hs₁ hs₂ := by
    simp only [setSequence, List.getElem?_set, hne.symm, if_false] at hs₂
    cases hs₁.symm.trans hs₂
    exact .refl _
  tokens _ _ := .inl
  covers _ h := h

theorem steps_emit (b : BunTest) {m : Mark}
    (hm : ∀ g d, m = .callbackQueued (.execution g (some d)) → b.execution.For i g d) : b.Steps (b.emit m) i :=
  { Steps.refl b i with
    tokens := by
      intro g d h
      rcases h with h | h
      · exact .inl (.inl h)
      · rcases List.mem_append.mp h with h | h
        · exact .inl (.inr h)
        · exact .inr (hm g d (List.mem_singleton.mp h).symm) }

theorem steps_tick (b : BunTest) (i : Nat) : b.Steps b.tick i :=
  { Steps.refl b i with }

theorem steps_completeSequence (b : BunTest) (g i : Nat) (s : ExecutionSequence) :
    b.Steps (b.completeSequence g i s) i := by
  have hlog := (steps_setSequence b i s).trans ((b.setSequence i s).steps_emit (m := .sequenceCompleted i) nofun)
  refine ⟨⟨rfl, rfl, ?_, List.length_set⟩, hlog.others, hlog.tokens, hlog.covers⟩
  apply List.ext_getElem?
  intro j
  simp only [completeSequence, modifyGroup, setSequence, emit, List.getElem?_map, List.getElem?_modify]
  cases b.execution.groups[j]? with
  | none => rfl
  | some group =>
    simp only [Option.map_eq_map, Option.map_some]
    split <;> rfl

/-! ### Stepping a sequence -/

/-- The sequence that was stepped is still being stepped, or it is done. -/
def StepOk (o : Loaded) (b : BunTest) (k i : Nat) : Prop :=
  Inv o b k (some i) ∨
    Inv o b k none ∧ ∃ s, b.execution.sequences[i]? = some s ∧ s.executing = false ∧ s.incomplete = false

theorem setSequence_setSequence (b : BunTest) (i : Nat) (s s' : ExecutionSequence) :
    (b.setSequence i s).setSequence i s' = b.setSequence i s' := by
  simp [setSequence, List.set_set]

theorem finishSequence_ok (ho : Partition 0 o.groups o.sequences.length) (w : World)
    (h : Inv o b k (some i)) (hexecuting : s.executing = false) (hcomplete : s.incomplete = false) (hentries : s.entries ≠ []) :
    StepOk o ((b.setSequence i s).finishSequence w b.execution.groupIndex i s) k i ∧
      b.Steps ((b.setSequence i s).finishSequence w b.execution.groupIndex i s) i := by
  obtain ⟨s₀, ⟨a, ha, hi, hik⟩, hs₀, hinc₀, -⟩ := h.stepped i rfl
  rw [finishSequence]
  split
  · have hreset : ({s.addFlakyAttempt (w.now (b.setSequence i s).ticks) with
        remainingRetryCount := (s.addFlakyAttempt (w.now (b.setSequence i s).ticks)).remainingRetryCount - 1} :
          ExecutionSequence).reset.incomplete = true := by
      apply ExecutionSequence.reset_incomplete
      rw [ExecutionSequence.addFlakyAttempt]
      split <;> exact hentries
    have heq : ∀ r, (b.setSequence i s).tick.setSequence i r = b.tick.setSequence i r :=
      fun r => setSequence_setSequence b.tick i s r
    dsimp only
    rw [heq]
    refine ⟨.inl (h.minor (((b.minor_tick _).trans (minor_setSequence _ i hreset)).trans
      (minor_emit _ _ trivial fun _ => rfl))), ?_⟩
    exact ((b.steps_tick i).trans (steps_setSequence _ _ _)).trans (steps_emit _ nofun)
  · split
    · have hreset : ({s with remainingRepeatCount := s.remainingRepeatCount - 1} :
          ExecutionSequence).reset.incomplete = true := ExecutionSequence.reset_incomplete hentries
      rw [setSequence_setSequence]
      exact ⟨.inl (h.minor ((minor_setSequence _ i hreset).trans (minor_emit _ _ trivial fun _ => rfl))),
        (steps_setSequence _ _ _).trans (steps_emit _ nofun)⟩
    · have hremaining : a.remainingIncompleteEntries ≠ 0 := by
        rw [(h.groups _ a ha).remaining]
        exact (List.countP_pos_iff.mpr ⟨s₀, ConcurrentGroup.mem_sequences.mpr ⟨i, hi, hs₀⟩, hinc₀⟩).ne'
      have ha' : (((b.setSequence i s).setSequence i {s with result := s.finalResult}).emit
          (.sequenceCompleted i)).execution.groups[b.execution.groupIndex]? = some a := ha
      dsimp only
      rw [ha']
      dsimp only
      rw [if_neg hremaining, setSequence_setSequence]
      refine ⟨.inr ⟨h.finish ho hexecuting hcomplete, {s with result := s.finalResult}, ?_, hexecuting, hcomplete⟩,
        steps_completeSequence b _ i _⟩
      have hlt := (List.getElem?_eq_some_iff.mp hs₀).choose
      exact List.getElem?_set_self hlt

/-- `advance_sequence` leaves the sequence to be stepped on, or done. -/
theorem advanceSequence_ok (ho : Partition 0 o.groups o.sequences.length) (w : World) (h : Inv o b k (some i)) :
    StepOk o (b.advanceSequence w b.execution.groupIndex i) k i ∧
      b.Steps (b.advanceSequence w b.execution.groupIndex i) i := by
  obtain ⟨s, -, hs, hinc, -⟩ := h.stepped i rfl
  have hmark : Inv o (b.emit (.entryCompleted i)) k (some i) := h.minor (minor_emit _ _ trivial fun _ => rfl)
  have hentries : s.completeEntry.entries ≠ [] := by
    rw [s.completeEntry_entries, ExecutionSequence.entries]
    exact List.append_ne_nil_of_right_ne_nil _ (ExecutionSequence.incomplete_iff.mp hinc)
  rw [advanceSequence, hs]
  dsimp only
  split
  · rename_i hremaining
    have hcomplete : s.completeEntry.incomplete = false := by
      simp [ExecutionSequence.incomplete, ExecutionSequence.activeEntry, hremaining]
    obtain ⟨hok, hsteps⟩ := finishSequence_ok ho w hmark (ExecutionSequence.completeEntry_executing hinc)
      hcomplete hentries
    exact ⟨hok, (b.steps_emit (m := .entryCompleted i) nofun).trans hsteps⟩
  · rename_i hremaining
    have hinc' : s.completeEntry.incomplete = true := by
      simp [ExecutionSequence.incomplete, ExecutionSequence.activeEntry, hremaining]
    exact ⟨.inl (hmark.minor (minor_setSequence _ i hinc')),
      (b.steps_emit (m := .entryCompleted i) nofun).trans (steps_setSequence _ _ _)⟩

/-- What is known when a sequence was stepped once. -/
def Stepped (o : Loaded) (b : BunTest) (k i : Nat) : Option Status → Prop
  | none => StepOk o b k i
  | some .done => Inv o b k none ∧
    ∃ s, b.execution.sequences[i]? = some s ∧ s.executing = false ∧ s.incomplete = false
  | some (.execute timeout) => Inv o b k none ∧ ∃ s entry, b.execution.sequences[i]? = some s ∧
    s.executing = true ∧ s.activeEntry = some entry ∧ entry.timespec = timeout

/-- The slot of a sequence is taken when it starts. -/
theorem entryStarted_ok (h : Inv o b k (some i)) (hexecuting : s.executing = true) (hinc : s.incomplete = true) :
    let b' := (b.tick.tick.setSequence i s).emit (.entryStarted i (b.tick.tick.setSequence i s).execution.executing)
    Inv o b' k (some i) ∧ b.Steps b' i ∧ b'.execution.sequences[i]? = some s := by
  have hset : Inv o (b.tick.tick.setSequence i s) k (some i) :=
    h.minor (((b.minor_tick _).trans (minor_tick _ _)).trans (minor_setSequence _ i hinc))
  obtain ⟨s₀, ⟨a, ha, hi, -⟩, hs₀, -, -⟩ := hset.stepped i rfl
  have hs : (b.tick.tick.setSequence i s).execution.sequences[i]? = some s := by
    obtain ⟨s₁, -, hs₁, -, -⟩ := h.stepped i rfl
    exact List.getElem?_set_self (List.getElem?_eq_some_iff.mp hs₁).choose
  have hslots := slots_some ha hi hs
  rw [hexecuting, if_pos rfl] at hslots
  refine ⟨hset.minor (minor_emit _ _ ?_ fun _ => rfl), ?_, hs⟩
  · intro hne
    have hle := hset.concurrency hne
    omega
  · exact (((b.steps_tick i).trans (steps_tick _ _)).trans (steps_setSequence _ _ _)).trans (steps_emit _ nofun)

theorem executing_pos (ha : b.execution.activeGroup = some a)
    (hi : a.Has i) (hs : b.execution.sequences[i]? = some s) (hexecuting : s.executing = true) :
    0 < b.execution.executing := by
  rw [Execution.executing, ha]
  exact List.countP_pos_iff.mpr ⟨s, ConcurrentGroup.mem_sequences.mpr ⟨i, hi, hs⟩, hexecuting⟩

/-- A callback runs while its sequence is executing. -/
theorem runTestCallback_ok (w : World)
    (h : Inv o b k (some i)) (hs : b.execution.sequences[i]? = some s) (hexecuting : s.executing = true) (timeout : Timespec) :
    Inv o (b.runTestCallback w timeout).2 k (some i) ∧ b.Steps (b.runTestCallback w timeout).2 i ∧
      ∃ s', (b.runTestCallback w timeout).2.execution.sequences[i]? = some s' ∧ ExecutionSequence.Quiet s s' := by
  obtain ⟨_, ⟨a, ha, hi, -⟩, -⟩ := h.stepped i rfl
  have hcalm := (runTestCallback_calm w h.phase timeout).1
  obtain ⟨s', hs'⟩ := Execution.getElem?_of_length hcalm.execution.length.symm hs
  exact ⟨h.minor (hcalm.minor (executing_pos ha hi hs hexecuting) h.counted),
    hcalm.steps ha hi (List.getElem?_eq_some_iff.mp hs).choose, s', hs',
    hcalm.execution.sequences i s s' hs hs'⟩

theorem stepSequenceOne_ok (ho : Partition 0 o.groups o.sequences.length) (w : World)
    (ha : b.execution.activeGroup = some a) {index : Nat} (h : StepOk o b k (a.sequenceStart + index)) (now : Timespec) :
    let r := b.stepSequenceOne w b.execution.groupIndex index now
    Stepped o r.2.2 k (a.sequenceStart + index) r.1 ∧ b.Steps r.2.2 (a.sequenceStart + index) := by
  have ha' : b.execution.groups[b.execution.groupIndex]? = some a := ha
  rw [stepSequenceOne, ha']
  dsimp only
  rcases h with h | ⟨h, s, hs, hexecuting, hcomplete⟩
  · obtain ⟨s, -, hs, hinc, -⟩ := h.stepped _ rfl
    obtain ⟨entry, hentry⟩ := Option.isSome_iff_exists.mp hinc
    rw [hs]
    dsimp only
    rw [hentry]
    dsimp only
    split
    · rename_i hexecuting
      split
      · rename_i s' heq
        have hquiet := s.quiet_evaluateTimeout now
        rw [heq] at hquiet
        have hset := h.minor (b.minor_setSequence _ (hquiet.incomplete.trans hinc))
        obtain ⟨hok, hsteps⟩ := advanceSequence_ok ho w hset
        exact ⟨hok, (b.steps_setSequence _ s').trans hsteps⟩
      · exact ⟨⟨h.close ho hs hexecuting, s, entry, hs, hexecuting, hentry, rfl⟩, .refl b _⟩
    · obtain ⟨hexecuting₁, hinc₁, -⟩ := s.started_spec (w.now b.ticks) (w.now b.tick.ticks)
      obtain ⟨hstarted, hsteps, hs₁⟩ := entryStarted_ok h hexecuting₁ (hinc₁.trans hinc)
      generalize hs₁' : s.started _ _ = s₁ at *
      generalize (b.tick.tick.setSequence _ s₁).emit _ = b₁ at hstarted hsteps hs₁ ⊢
      have hinc₁' : s₁.incomplete = true := hinc₁.trans hinc
      obtain ⟨entry₁, hentry₁⟩ := Option.isSome_iff_exists.mp hinc₁'
      rw [hsteps.groupIndex.symm, hentry₁]
      simp only [Option.map_some, Option.getD_some]
      split
      · have hqueued := hstarted.minor (b₁.minor_emit _ (m := .callbackQueued
          (.execution b₁.execution.groupIndex (some ⟨index, entry.id, s₁.remainingRepeatCount⟩))) trivial fun _ => rfl)
        obtain ⟨hcalled, hsteps', s₂, hs₂, hquiet⟩ := runTestCallback_ok w hqueued hs₁ hexecuting₁ entry₁.timespec
        have hemit := b₁.steps_emit (m := .callbackQueued
            (.execution b₁.execution.groupIndex (some ⟨index, entry.id, s₁.remainingRepeatCount⟩)))
          fun _ _ hm => by cases hm; exact hsteps.toFrame.for ⟨hsteps.groupIndex, a, ha, rfl⟩
        have hsteps₂ := (hsteps.trans hemit).trans hsteps'
        split
        · rename_i b₂ heq
          rw [heq] at hcalled hs₂ hsteps₂
          have hs₂' : b₂.tick.execution.sequences[a.sequenceStart + index]? = some s₂ := hs₂
          rw [hs₂']
          dsimp only
          have hinc₂ : (s₂.evaluateTimeout (w.now b₂.ticks)).2.incomplete = true :=
            ((s₂.quiet_evaluateTimeout _).incomplete.trans hquiet.incomplete).trans hinc₁'
          obtain ⟨hok, hadvanced⟩ := advanceSequence_ok ho w
            (hcalled.minor ((b₂.minor_tick _).trans (minor_setSequence _ _ hinc₂)))
          have hindex : b₁.execution.groupIndex = b₂.execution.groupIndex :=
            hsteps.groupIndex.trans hsteps₂.groupIndex.symm
          rw [hindex]
          exact ⟨hok, ((hsteps₂.trans (b₂.steps_tick _)).trans (steps_setSequence _ _ _)).trans hadvanced⟩
        · rename_i b₂ heq
          rw [heq] at hcalled hs₂ hsteps₂
          exact ⟨⟨hcalled.close ho hs₂ (hquiet.executing.trans hexecuting₁), s₂, entry₁, hs₂,
            hquiet.executing.trans hexecuting₁, hquiet.activeEntry.trans hentry₁, rfl⟩, hsteps₂⟩
      · have hinc₂ : (s₁.skipEntry entry.base.mode).incomplete = true :=
          (s₁.quiet_skipEntry _).incomplete.trans hinc₁'
        obtain ⟨hok, hadvanced⟩ := advanceSequence_ok ho w (hstarted.minor (minor_setSequence _ _ hinc₂))
        exact ⟨hok, (hsteps.trans (steps_setSequence _ _ _)).trans hadvanced⟩
  · have hnone : s.activeEntry = none := by
      rwa [ExecutionSequence.incomplete, Option.isSome_eq_false_iff, Option.isNone_iff_eq_none] at hcomplete
    rw [hs]
    dsimp only
    rw [hnone, hexecuting]
    exact ⟨⟨h, s, hs, hexecuting, hcomplete⟩, .refl b _⟩

theorem stepSequence_ok (ho : Partition 0 o.groups o.sequences.length) (w : World) {fuel k g index : Nat}
    (ha : b.execution.activeGroup = some a) (hg : g = b.execution.groupIndex) {now now' : Timespec} {status : Status}
    (h : StepOk o b k (a.sequenceStart + index)) (heq : stepSequence w g index fuel b now = some (status, now', b')) :
    Stepped o b' k (a.sequenceStart + index) (some status) ∧ b.Steps b' (a.sequenceStart + index) := by
  induction fuel generalizing b now a with
  | zero => cases heq
  | succ fuel ih =>
    subst hg
    obtain ⟨hok, hsteps⟩ := stepSequenceOne_ok ho w ha h now
    rw [stepSequence] at heq
    generalize b.stepSequenceOne w b.execution.groupIndex index now = r at heq hok hsteps
    obtain ⟨result, now₁, b₁⟩ := r
    cases result with
    | some status₁ =>
      cases heq
      exact ⟨hok, hsteps⟩
    | none =>
      obtain ⟨a₁, ha₁, hrange, -⟩ := hsteps.toFrame.activeGroup ha
      have hstart : a₁.sequenceStart = a.sequenceStart := congrArg Prod.fst hrange
      rw [← hstart] at hok hsteps ⊢
      obtain ⟨hdone, hrest⟩ := ih ha₁ hsteps.groupIndex.symm hok heq
      exact ⟨hdone, hsteps.trans hrest⟩

end BunTest

end Funbun.TestRunner
