import Funbun.TestRunner.ExecutionProofs

/-! Groups, the queue and the timer.

`stepGroupOne` looks at the sequences of a group in order until the slots are used up. All that
are executing are among those it looked at, so the time it answers is the earliest of their
deadlines. -/
namespace Funbun.TestRunner.BunTest

/-! ### The sequences of a group -/

/-- What is known of a sequence that was looked at: it is done, or it is executing and the timeout
is no later than its deadline. -/
def Seen (timeout : Option Timespec) (s : ExecutionSequence) : Prop :=
  s.executing = false ∧ s.incomplete = false ∨
    s.executing = true ∧ ∃ t entry, timeout = some t ∧ s.activeEntry = some entry ∧
      (entry.timespec ≠ 0 → t ≠ 0 ∧ t ≤ entry.timespec)

variable {s s' : ExecutionSequence} {f : ConcurrentGroup → ConcurrentGroup}

theorem Seen.quiet {timeout : Option Timespec} (h : Seen timeout s)
    (hquiet : ExecutionSequence.Quiet s s') : Seen timeout s' := by
  rw [Seen, hquiet.executing, hquiet.incomplete, hquiet.activeEntry]
  exact h

theorem minIgnoreEpoch_le_left {a b d : Timespec} (h : a ≠ 0 ∧ a ≤ d) : minIgnoreEpoch a b ≠ 0 ∧ minIgnoreEpoch a b ≤ d := by
  rw [minIgnoreEpoch]
  grind

theorem minIgnoreEpoch_le_right {a b d : Timespec} (h : b ≠ 0 ∧ b ≤ d) : minIgnoreEpoch a b ≠ 0 ∧ minIgnoreEpoch a b ≤ d := by
  rw [minIgnoreEpoch]
  grind

variable {s : ExecutionSequence} {b b' : BunTest} {a : ConcurrentGroup} {p k i fuel activeCount g : Nat} {o : Loaded}
  {status : Status} {w : World} {now now' m : Timespec} {result : StepResult}

theorem Seen.min {timeout : Option Timespec} (h : Seen timeout s) (t : Timespec) :
    Seen (some (minIgnoreEpoch (timeout.getD 0) t)) s := by
  apply h.imp id
  intro ⟨hexecuting, t', entry, ht', hentry, hle⟩
  subst ht'
  exact ⟨hexecuting, _, entry, rfl, hentry, fun hne => minIgnoreEpoch_le_left (hle hne)⟩

/-- How many of the first `p` sequences of the group are executing. -/
def executingBefore (b : BunTest) (a : ConcurrentGroup) (p : Nat) : Nat :=
  ((a.sequences b.execution.sequences).take p).countP fun s => s.executing

theorem executingBefore_succ
    (hp : p < a.sequenceEnd - a.sequenceStart) (hs : b.execution.sequences[a.sequenceStart + p]? = some s) :
    b.executingBefore a (p + 1) = b.executingBefore a p + if s.executing then 1 else 0 := by
  have hi : a.Has (a.sequenceStart + p) := ⟨Nat.le_add_right _ _, by omega⟩
  have hget := ConcurrentGroup.sequences_getElem? b.execution.sequences hi
  rw [Nat.add_sub_cancel_left, hs] at hget
  rw [executingBefore, List.take_add_one, hget, executingBefore, List.countP_append]
  simp [List.countP_cons]

theorem executingBefore_congr (hlength : b'.execution.sequences.length = b.execution.sequences.length)
    (hp : p ≤ a.sequenceEnd - a.sequenceStart) (h : ∀ q < p, ∀ s s', b.execution.sequences[a.sequenceStart + q]? = some s →
      b'.execution.sequences[a.sequenceStart + q]? = some s' → s'.executing = s.executing) :
    b'.executingBefore a p = b.executingBefore a p := by
  have hmap : ((a.sequences b'.execution.sequences).take p).map ExecutionSequence.executing =
      ((a.sequences b.execution.sequences).take p).map ExecutionSequence.executing := by
    apply List.ext_getElem?
    intro q
    rw [List.getElem?_map, List.getElem?_map, List.getElem?_take, List.getElem?_take]
    split
    · rename_i hq
      have hi : a.Has (a.sequenceStart + q) := ⟨Nat.le_add_right _ _, by omega⟩
      have hget := ConcurrentGroup.sequences_getElem? b.execution.sequences hi
      have hget' := ConcurrentGroup.sequences_getElem? b'.execution.sequences hi
      rw [Nat.add_sub_cancel_left] at hget hget'
      rw [hget, hget']
      cases hs' : b'.execution.sequences[a.sequenceStart + q]? with
      | none =>
        rw [List.getElem?_eq_none_iff, hlength, ← List.getElem?_eq_none_iff] at hs'
        rw [hs']
      | some s' =>
        obtain ⟨s, hs⟩ := Execution.getElem?_of_length hlength hs'
        rw [hs, Option.map_some, Option.map_some, h q hq s s' hs hs']
    · rfl
  have hcount := congrArg (List.countP id) hmap
  rwa [List.countP_map, List.countP_map] at hcount

theorem executingBefore_le (b : BunTest) (ha : b.execution.activeGroup = some a) (p : Nat) :
    b.executingBefore a p ≤ b.execution.executing := by
  rw [executingBefore, Execution.executing, ha]
  exact (List.take_sublist _ _).countP_le

/-- If no more are executing than the first `p`, one that is executing is one of these. -/
theorem lt_of_executing (ha : b.execution.activeGroup = some a) {p q : Nat}
    (hall : b.execution.executing ≤ b.executingBefore a p)
    (hq : (a.sequences b.execution.sequences)[q]? = some s) (hexecuting : s.executing = true) : q < p := by
  by_contra hlt
  rw [executingBefore, Execution.executing, ha] at hall
  dsimp only at hall
  have hsplit := List.take_append_drop p (a.sequences b.execution.sequences)
  rw [← hsplit, List.countP_append, hsplit] at hall
  have hpos : 0 < ((a.sequences b.execution.sequences).drop p).countP fun s => s.executing := by
    apply List.countP_pos_iff.mpr
    refine ⟨s, ?_, hexecuting⟩
    apply List.mem_of_getElem? (i := q - p)
    rw [List.getElem?_drop, Nat.add_sub_cancel' (by omega), hq]
  omega

/-- The sequences that were not started are not executing. -/
theorem Inv.executing_le (h : Inv o b k none)
    (ha : b.execution.activeGroup = some a) (hk : k ≤ p) : b.execution.executing ≤ b.executingBefore a p := by
  rw [Execution.executing, ha, executingBefore]
  dsimp only
  have hrest : ((a.sequences b.execution.sequences).drop p).countP (fun s => s.executing) = 0 := by
    apply List.countP_eq_zero.mpr
    intro s hs
    obtain ⟨q, hq⟩ := List.mem_iff_getElem?.mp hs
    rw [List.getElem?_drop] at hq
    have hlt : p + q < a.sequenceEnd - a.sequenceStart := by
      have hlength := (List.getElem?_eq_some_iff.mp hq).choose
      rw [ConcurrentGroup.sequences, List.length_take] at hlength
      omega
    have hi : a.Has (a.sequenceStart + (p + q)) := ⟨Nat.le_add_right _ _, by omega⟩
    have hget := ConcurrentGroup.sequences_getElem? b.execution.sequences hi
    rw [Nat.add_sub_cancel_left, hq] at hget
    simp [((h.sequences _ a ha _ s hi hget.symm (by simp)).fresh rfl (by omega)).1]
  conv_lhs => rw [← List.take_append_drop p (a.sequences b.execution.sequences), List.countP_append, hrest]
  exact Nat.le_refl _

/-- The tokens there are, are for sequences that were started. -/
def TokensOk (b : BunTest) (k : Nat) : Prop :=
  ∀ g d, b.Token (.execution g (some d)) →
    g < b.execution.groupIndex ∨ g = b.execution.groupIndex ∧ d.sequenceIndex < k

structure Settled (o : Loaded) (b : BunTest) (k : Nat) : Prop where
  inv : Inv o b k none
  tokens : b.TokensOk k

/-- A sequence that was started can be stepped, and the next one if there is a slot. -/
theorem Inv.stepOk (ho : Partition 0 o.groups o.sequences.length)
    (h : Inv o b k none) (ha : b.execution.activeGroup = some a) (hpk : p ≤ k) (hp : p < a.sequenceEnd - a.sequenceStart)
    (hslot : p = k → b.maxConcurrency ≠ 0 → b.execution.executing < b.maxConcurrency) :
    ∃ k', k ≤ k' ∧ p < k' ∧ StepOk o b k' (a.sequenceStart + p) := by
  have hi : a.Has (a.sequenceStart + p) := ⟨Nat.le_add_right _ _, by omega⟩
  by_cases hk : p = k
  · subst hk
    exact ⟨p + 1, Nat.le_succ p, Nat.lt_succ_self p, .inl (h.start ho ha hp (hslot rfl))⟩
  · obtain ⟨-, hle⟩ := (h.partition ho).end_le ha
    obtain ⟨s, hs⟩ : ∃ s, b.execution.sequences[a.sequenceStart + p]? = some s :=
      ⟨_, List.getElem?_eq_getElem (hi.2.trans_le hle)⟩
    have hok := h.sequences _ a ha _ s hi hs nofun
    refine ⟨k, Nat.le_refl k, by omega, ?_⟩
    cases hexecuting : s.executing with
    | true => exact .inl (h.resume ha hi hs hexecuting)
    | false =>
      have hdone := hok.started rfl (by omega)
      rw [hexecuting] at hdone
      exact .inr ⟨h, s, hs, hexecuting, hdone.resolve_left nofun⟩

/-- New tokens are for the sequence that was stepped. -/
theorem TokensOk.steps {k k' p : Nat} (h : b.TokensOk k)
    (ha : b.execution.activeGroup = some a) (hk : k ≤ k') (hp : p < k') (hsteps : b.Steps b' (a.sequenceStart + p)) :
    b'.TokensOk k' := by
  intro g d htoken
  rw [hsteps.groupIndex]
  rcases hsteps.tokens g d htoken with hold | ⟨hg, a', ha', hi⟩
  · apply (h g d hold).imp id
    intro ⟨hg, hlt⟩
    exact ⟨hg, hlt.trans_le hk⟩
  · cases ha.symm.trans ha'
    exact .inr ⟨hg, by omega⟩

theorem Stepped.inv (h : Stepped o b k i (some status)) :
    Inv o b k none := by
  cases status with
  | done => exact h.1
  | execute timeout => exact h.1

/-- What `step_sequence` does when nothing else is being stepped. -/
theorem Settled.step (ho : Partition 0 o.groups o.sequences.length) (h : Settled o b k)
    (ha : b.execution.activeGroup = some a) (hpk : p ≤ k) (hp : p < a.sequenceEnd - a.sequenceStart)
    (hslot : p = k → b.maxConcurrency ≠ 0 → b.execution.executing < b.maxConcurrency)
    (heq : stepSequence w b.execution.groupIndex p fuel b now = some (status, now', b')) :
    b.Steps b' (a.sequenceStart + p) ∧
      ∃ k', k ≤ k' ∧ p < k' ∧ Settled o b' k' ∧ Stepped o b' k' (a.sequenceStart + p) (some status) := by
  obtain ⟨k', hk, hp', hstep⟩ := h.inv.stepOk ho ha hpk hp hslot
  obtain ⟨hstepped, hsteps⟩ := stepSequence_ok ho w ha rfl hstep heq
  exact ⟨hsteps, k', hk, hp', ⟨hstepped.inv, h.tokens.steps ha hk hp' hsteps⟩, hstepped⟩

/-- How things are before the `p`-th sequence of the group is looked at. -/
structure Looking (o : Loaded) (b : BunTest) (a : ConcurrentGroup) (p activeCount : Nat)
    (timeout : Option Timespec) : Prop where
  settled : ∃ k, Settled o b k ∧ p ≤ k
  group : ∃ a', b.execution.activeGroup = some a' ∧ a'.range = a.range
  inside : p ≤ a.sequenceEnd - a.sequenceStart
  count : activeCount = b.executingBefore a p
  seen : ∀ q < p, ∀ s, b.execution.sequences[a.sequenceStart + q]? = some s → Seen timeout s
  waits : timeout.isSome = true ↔ 0 < activeCount

/-- How they are when all were looked at, or the slots are used up. -/
structure Looked (o : Loaded) (b : BunTest) (a : ConcurrentGroup) (timeout : Option Timespec) : Prop where
  settled : ∃ k, Settled o b k
  seen : ∀ s ∈ a.sequences b.execution.sequences, s.executing = true → Seen timeout s
  waits : timeout.isSome = true ↔ 0 < b.execution.executing
  done : timeout = none → ∀ s ∈ a.sequences b.execution.sequences, s.executing = false ∧ s.incomplete = false

theorem Looking.next (ho : Partition 0 o.groups o.sequences.length) {timeout : Option Timespec}
    (h : Looking o b a p activeCount timeout) (hp : p < a.sequenceEnd - a.sequenceStart)
    (hslot : b.maxConcurrency ≠ 0 → activeCount < b.maxConcurrency)
    (heq : stepSequence w b.execution.groupIndex p fuel b now = some (status, now', b')) :
    b.Frame b' ∧
      match status with
      | .done => Looking o b' a (p + 1) activeCount timeout
      | .execute this => Looking o b' a (p + 1) (activeCount + 1) (some (minIgnoreEpoch (timeout.getD 0) this)) := by
  obtain ⟨⟨k, hsettled, hpk⟩, ⟨a', ha', hrange⟩, -, hcount, hseen, hwaits⟩ := h
  have hstart : a'.sequenceStart = a.sequenceStart := congrArg Prod.fst hrange
  have hend : a'.sequenceEnd = a.sequenceEnd := congrArg (fun r => r.2.1) hrange
  obtain ⟨hsteps, k₁, -, hpk₁, hsettled', hstepped⟩ := hsettled.step ho ha' hpk (by omega) (fun hpk hne => by
    have hfew : b.execution.executing ≤ b.executingBefore a' p := hsettled.inv.executing_le ha' hpk.ge
    have hsame : b.executingBefore a' p = b.executingBefore a p := by
      rw [executingBefore, ConcurrentGroup.sequences_congr hrange, executingBefore]
    have := hslot hne
    omega) heq
  refine ⟨hsteps.toFrame, ?_⟩
  have hgroup' : ∃ a₁, b'.execution.activeGroup = some a₁ ∧ a₁.range = a.range := by
    obtain ⟨a₁, ha₁, hrange₁, -⟩ := hsteps.toFrame.activeGroup ha'
    exact ⟨a₁, ha₁, hrange₁.trans hrange⟩
  rw [hstart] at hstepped hsteps
  have hbefore : b'.executingBefore a p = b.executingBefore a p := by
    apply executingBefore_congr hsteps.length (by omega)
    intro q hq s s' hs hs'
    exact (hsteps.others _ s s' (by omega) hs hs').executing
  have hothers : ∀ q < p, ∀ s', b'.execution.sequences[a.sequenceStart + q]? = some s' → Seen timeout s' := by
    intro q hq s' hs'
    obtain ⟨s, hs⟩ := Execution.getElem?_of_length hsteps.length hs'
    exact (hseen q hq s hs).quiet (hsteps.others _ s s' (by omega) hs hs')
  cases status with
  | done =>
    obtain ⟨-, s', hs', hexecuting, hcomplete⟩ := hstepped
    refine ⟨⟨k₁, hsettled', hpk₁⟩, hgroup', hp, ?_, ?_, hwaits⟩
    · rw [executingBefore_succ hp hs', hexecuting, hbefore, hcount]
      simp
    · intro q hq s₁ hs₁
      by_cases hqp : q < p
      · exact hothers q hqp s₁ hs₁
      · obtain rfl : q = p := by omega
        cases hs'.symm.trans hs₁
        exact .inl ⟨hexecuting, hcomplete⟩
  | execute this =>
    obtain ⟨-, s', entry, hs', hexecuting, hentry, rfl⟩ := hstepped
    refine ⟨⟨k₁, hsettled', hpk₁⟩, hgroup', hp, ?_, ?_, by simp⟩
    · rw [executingBefore_succ hp hs', hexecuting, hbefore, hcount]
      simp
    · intro q hq s₁ hs₁
      by_cases hqp : q < p
      · exact (hothers q hqp s₁ hs₁).min _
      · obtain rfl : q = p := by omega
        cases hs'.symm.trans hs₁
        exact .inr ⟨hexecuting, _, entry, rfl, hentry, fun hne => minIgnoreEpoch_le_right ⟨hne, Nat.le_refl _⟩⟩

theorem Looking.looked {timeout : Option Timespec} (h : Looking o b a p activeCount timeout)
    (hall : b.execution.executing ≤ activeCount) (hdone : timeout = none → p = a.sequenceEnd - a.sequenceStart) :
    Looked o b a timeout := by
  obtain ⟨⟨k, hsettled, -⟩, ⟨a', ha', hrange⟩, hp, hcount, hseen, hwaits⟩ := h
  have hsequences : a'.sequences b.execution.sequences = a.sequences b.execution.sequences :=
    ConcurrentGroup.sequences_congr hrange
  have hsame : b.executingBefore a' p = b.executingBefore a p := by
    rw [executingBefore, hsequences, executingBefore]
  have hle := b.executingBefore_le ha' p
  have hget : ∀ q s, (a'.sequences b.execution.sequences)[q]? = some s →
      q < a.sequenceEnd - a.sequenceStart ∧ b.execution.sequences[a.sequenceStart + q]? = some s := by
    intro q s hq
    rw [hsequences] at hq
    have hlt := (List.getElem?_eq_some_iff.mp hq).choose
    rw [ConcurrentGroup.sequences, List.length_take] at hlt
    have hi : a.Has (a.sequenceStart + q) := ⟨Nat.le_add_right _ _, by omega⟩
    have hplace := ConcurrentGroup.sequences_getElem? b.execution.sequences hi
    rw [Nat.add_sub_cancel_left, hq] at hplace
    exact ⟨by omega, hplace.symm⟩
  refine ⟨⟨k, hsettled⟩, ?_, ?_, ?_⟩
  · intro s hs hexecuting
    rw [← hsequences] at hs
    obtain ⟨q, hq⟩ := List.mem_iff_getElem?.mp hs
    exact hseen q (lt_of_executing ha' (by omega) hq hexecuting) s (hget q s hq).2
  · rw [hwaits]
    omega
  · intro hnone s hs
    rw [← hsequences] at hs
    obtain ⟨q, hq⟩ := List.mem_iff_getElem?.mp hs
    obtain ⟨hlt, hplace⟩ := hget q s hq
    rcases hseen q (hdone hnone ▸ hlt) s hplace with hcomplete | ⟨-, t, entry, ht, -⟩
    · exact hcomplete
    · rw [hnone] at ht
      cases ht

theorem stepGroupOne_ok (ho : Partition 0 o.groups o.sequences.length) {fuel g p n activeCount : Nat}
    {timeout timeout' : Option Timespec} (h : Looking o b a p activeCount timeout) (hg : g = b.execution.groupIndex)
    (hn : p + n = a.sequenceEnd - a.sequenceStart) (hslot : b.maxConcurrency ≠ 0 → activeCount < b.maxConcurrency)
    (heq : stepGroupOne w fuel g (List.range' p n) activeCount timeout b now = some (timeout', now', b')) :
    b.Frame b' ∧ Looked o b' a timeout' := by
  induction n generalizing p activeCount timeout b now with
  | zero =>
    cases heq
    refine ⟨.refl _, h.looked ?_ fun _ => hn⟩
    obtain ⟨⟨k, ⟨hinv, -⟩, hpk⟩, ⟨a', ha', hrange⟩, -, hcount, -⟩ := h
    have hk := (hinv.next a' ha').2
    have hstart : a'.sequenceStart = a.sequenceStart := congrArg Prod.fst hrange
    have hend : a'.sequenceEnd = a.sequenceEnd := congrArg (fun r => r.2.1) hrange
    have hle := hinv.executing_le ha' (p := p) (by omega)
    rwa [executingBefore, ConcurrentGroup.sequences_congr hrange, ← executingBefore, ← hcount] at hle
  | succ n ih =>
    subst hg
    rw [List.range'_succ, stepGroupOne] at heq
    simp only [Option.bind_eq_bind, Option.bind_eq_some_iff] at heq
    obtain ⟨⟨status, now₁, b₁⟩, hstep, heq⟩ := heq
    obtain ⟨hframe, hnext⟩ := h.next ho (by omega) hslot hstep
    have hmax := hframe.maxConcurrency
    cases status with
    | done =>
      obtain ⟨hframe', hlooked⟩ := ih hnext hframe.groupIndex.symm (by omega) (by rwa [hmax]) heq
      exact ⟨hframe.trans hframe', hlooked⟩
    | execute this =>
      dsimp only at heq hnext
      split at heq
      · rename_i hfull
        cases heq
        refine ⟨hframe, hnext.looked ?_ nofun⟩
        obtain ⟨k, ⟨hinv, -⟩, -⟩ := hnext.settled
        exact (hinv.concurrency hfull.1).trans hfull.2
      · rename_i hfull
        obtain ⟨hframe', hlooked⟩ := ih hnext hframe.groupIndex.symm (by omega) (by omega) heq
        exact ⟨hframe.trans hframe', hlooked⟩

/-! ### Groups -/

def startGroup (b : BunTest) : BunTest :=
  (b.emit (.groupStarted b.execution.groupIndex)).modifyGroup b.execution.groupIndex fun g =>
    {g with executing := true}

def leaveGroup (b : BunTest) (remaining next : Nat) : BunTest :=
  let b := (b.modifyGroup b.execution.groupIndex fun g => {g with executing := false}).emit
    (.groupCompleted b.execution.groupIndex remaining next)
  {b with execution := {b.execution with groupIndex := next}}

/-- The groups when only a field of the active one changes. -/
theorem getElem?_modifyGroup {j g : Nat} {c' : ConcurrentGroup} (h : (b.modifyGroup g f).execution.groups[j]? = some c') :
    ∃ c, b.execution.groups[j]? = some c ∧ c' = if g = j then f c else c := by
  simp only [modifyGroup, List.getElem?_modify] at h
  cases hc : b.execution.groups[j]? with
  | none => simp [hc] at h
  | some c => simp_all

theorem ranges_modifyGroup (b : BunTest) (g : Nat) (hf : ∀ c, (f c).range = c.range) :
    (b.modifyGroup g f).execution.groups.map ConcurrentGroup.range = b.execution.groups.map ConcurrentGroup.range := by
  apply List.ext_getElem?
  intro j
  simp only [modifyGroup, List.getElem?_map, List.getElem?_modify]
  cases b.execution.groups[j]? with
  | none => rfl
  | some c =>
    simp only [Option.map_eq_map, Option.map_some]
    split
    · rw [hf]
    · rfl

theorem activeGroup_range {e e' : Execution}
    (hranges : e'.groups.map ConcurrentGroup.range = e.groups.map ConcurrentGroup.range)
    (hindex : e'.groupIndex = e.groupIndex) :
    e'.activeGroup.map ConcurrentGroup.range = e.activeGroup.map ConcurrentGroup.range := by
  rw [Execution.activeGroup, Execution.activeGroup, ← List.getElem?_map, ← List.getElem?_map, hranges, hindex]

theorem Inv.startGroup (h : Inv o b k none) : Inv o b.startGroup k none := by
  have hranges := b.ranges_modifyGroup b.execution.groupIndex (f := fun g => {g with executing := true}) fun _ => rfl
  have hstarted : ∀ j, b.startGroup.HasStarted j ↔ b.HasStarted j ∨ j = b.execution.groupIndex := by
    intro j
    simp [HasStarted, BunTest.startGroup, modifyGroup, emit]
  have hlog : b.startGroup.log = b.log ++ [.groupStarted b.execution.groupIndex] := rfl
  have hcompletions : ∀ i, b.startGroup.completions i = b.completions i := fun i =>
    completions_of_log hlog (by simp [Mark.completes])
  refine ⟨h.phase, h.limit, hranges.trans h.ranges, h.length, ?_, ?_, ?_, by simp, ?_, ?_⟩
  · intro j g' hg'
    obtain ⟨g, hg, rfl⟩ := getElem?_modifyGroup hg'
    obtain ⟨hremaining, hahead, hactive⟩ := h.groups j g hg
    by_cases hj : b.execution.groupIndex = j
    · subst hj
      rw [if_pos rfl]
      exact ⟨hremaining, fun hlt => absurd hlt (Nat.lt_irrefl _), fun _ => by simp [hstarted]⟩
    · rw [if_neg hj]
      refine ⟨hremaining, ?_, fun heq => absurd heq.symm hj⟩
      intro hlt
      rw [hstarted]
      obtain ⟨hexecuting, hnext, hnot⟩ := hahead hlt
      exact ⟨hexecuting, hnext, fun hor => hor.elim hnot fun heq => hj heq.symm⟩
  · intro g' hg'
    obtain ⟨g, hg, rfl⟩ := getElem?_modifyGroup hg'
    have hnext := h.next g hg
    split <;> exact hnext
  · intro j g' hg' i s hi hs _
    obtain ⟨g, hg, rfl⟩ := getElem?_modifyGroup hg'
    have hi' : g.Has i := by split at hi <;> exact hi
    have hplace : (if b.execution.groupIndex = j then {g with executing := true} else g).sequenceStart =
        g.sequenceStart := by split <;> rfl
    obtain ⟨hexec, hcompl, hbehind, hahead, hdone, hfresh⟩ := h.sequences j g hg i s hi' hs (by simp)
    rw [hplace]
    refine ⟨hexec, (hcompletions i).trans hcompl, ?_, hahead, hdone, hfresh⟩
    intro hlt
    have hne : j ≠ b.execution.groupIndex := Nat.ne_of_lt hlt
    rw [hstarted, or_iff_left hne]
    exact hbehind hlt
  · intro hne
    have heq : b.startGroup.execution.executing = b.execution.executing :=
      Execution.executing_congr (activeGroup_range hranges rfl) rfl
    exact heq.trans_le (h.concurrency hne)
  · obtain ⟨hconcurrency, hunderflow, hbegun, hleft, hpassed, hmoments⟩ := h.marks
    refine ⟨?_, ?_, ?_, ?_, ?_, ?_⟩
    · intro hne i n hm
      exact hconcurrency hne i n (by simpa [BunTest.startGroup, modifyGroup, emit] using hm)
    · simpa [BunTest.startGroup, modifyGroup, emit] using hunderflow
    · intro j hj
      exact ((hstarted j).mp hj).elim (hbegun j) Nat.le_of_eq
    · intro j r n hm
      obtain ⟨hr, hn, hbetween⟩ := hleft j r n (by simpa [BunTest.startGroup, modifyGroup, emit] using hm)
      refine ⟨hr, hn, ?_⟩
      intro j' hj hj'
      rw [hstarted]
      exact fun hor => hor.elim (hbetween j' hj hj') (by omega)
    · intro j hj
      apply (hpassed j hj).imp fun hj => (hstarted j).mpr (.inl hj)
      rintro ⟨j₀, r, n, hm, hlt⟩
      exact ⟨j₀, r, n, by simpa [BunTest.startGroup, modifyGroup, emit] using hm, hlt⟩
    · intro m hm
      exact hmoments m (by simpa [BunTest.startGroup, modifyGroup, emit] using hm)

theorem Inv.leaveGroup {k next : Nat} (h : Inv o b k none)
    (ha : b.execution.activeGroup = some a) (hexecuting : a.executing = true)
    (hdone : ∀ s ∈ a.sequences b.execution.sequences, s.executing = false ∧ s.incomplete = false)
    (hnext : b.execution.groupIndex < next) : Inv o (b.leaveGroup a.remainingIncompleteEntries next) 0 none := by
  have hremaining : a.remainingIncompleteEntries = 0 := by
    rw [(h.groups _ a ha).remaining, List.countP_eq_zero]
    intro s hs
    simp [(hdone s hs).2]
  have hstarted : ∀ j, (b.leaveGroup a.remainingIncompleteEntries next).HasStarted j ↔ b.HasStarted j := by
    intro j
    simp [HasStarted, BunTest.leaveGroup, modifyGroup, emit]
  have hadded : (b.leaveGroup a.remainingIncompleteEntries next).log =
      b.log ++ [.groupCompleted b.execution.groupIndex a.remainingIncompleteEntries next] := rfl
  have hcompletions : ∀ i, (b.leaveGroup a.remainingIncompleteEntries next).completions i = b.completions i := fun i =>
    completions_of_log hadded (by simp [Mark.completes])
  have hbegun : b.HasStarted b.execution.groupIndex := ((h.groups _ a ha).active rfl).mpr hexecuting
  have hgroups : ∀ j g', (b.leaveGroup a.remainingIncompleteEntries next).execution.groups[j]? = some g' →
      ∃ g, b.execution.groups[j]? = some g ∧
        g' = if b.execution.groupIndex = j then {g with executing := false} else g :=
    fun j g' hg' => getElem?_modifyGroup (b := b) (g := b.execution.groupIndex) hg'
  refine ⟨h.phase, h.limit, ?_, h.length, ?_, ?_, ?_, by simp, ?_, ?_⟩
  · rw [← h.ranges]
    exact b.ranges_modifyGroup b.execution.groupIndex (f := fun g => {g with executing := false}) fun _ => rfl
  · intro j g' hg'
    obtain ⟨g, hg, rfl⟩ := hgroups j g' hg'
    obtain ⟨hremaining, hahead, hactive⟩ := h.groups j g hg
    by_cases hj : b.execution.groupIndex = j
    · rw [if_pos hj]
      refine ⟨hremaining, fun hlt => ?_, fun heq => ?_⟩
      · have hlt' : next < j := hlt
        omega
      · have heq' : j = next := heq
        omega
    · rw [if_neg hj]
      refine ⟨hremaining, fun hlt => ?_, fun heq => ?_⟩
      · rw [hstarted]
        exact hahead (hnext.trans hlt)
      · have heq' : j = next := heq
        subst heq'
        rw [hstarted]
        obtain ⟨hnot, -, hnever⟩ := hahead hnext
        simp [hnot, hnever]
  · intro g' hg'
    obtain ⟨g, hg, rfl⟩ := hgroups next g' hg'
    have hzero := ((h.groups next g hg).ahead hnext).2.1
    rw [if_neg (Nat.ne_of_lt hnext)]
    exact ⟨hzero.le, Nat.zero_le _⟩
  · intro j g' hg' i s hi hs _
    obtain ⟨g, hg, rfl⟩ := hgroups j g' hg'
    have hi' : g.Has i := by split at hi <;> exact hi
    obtain ⟨hexec, hcompl, hbehind, hahead, -⟩ := h.sequences j g hg i s hi' hs (by simp)
    refine ⟨hexec, (hcompletions i).trans hcompl, ?_, ?_, fun _ hlt => absurd hlt (Nat.not_lt_zero _), ?_⟩
    · intro hlt
      have hlt' : j < next := hlt
      rw [hstarted]
      rcases Nat.lt_trichotomy j b.execution.groupIndex with hj | hj | hj
      · exact hbehind hj
      · subst hj
        cases ha.symm.trans hg
        obtain ⟨hstill, hcomplete⟩ := hdone s (ConcurrentGroup.mem_sequences.mpr ⟨i, hi', hs⟩)
        simp [hstill, hcomplete, hbegun]
      · obtain ⟨hstill, hinc⟩ := hahead hj
        have hnever := ((h.groups j g hg).ahead hj).2.2
        simp [hstill, hinc, hnever]
    · intro hlt
      exact hahead (hnext.trans hlt)
    · intro heq _
      have heq' : j = next := heq
      exact hahead (heq' ▸ hnext)
  · intro _
    have hnone : (b.leaveGroup a.remainingIncompleteEntries next).execution.executing = 0 := by
      rw [Execution.executing]
      split
      · rfl
      · rename_i g' hg'
        obtain ⟨g, hg, rfl⟩ := hgroups next g' hg'
        rw [List.countP_eq_zero]
        intro s hs
        obtain ⟨i, hi, hs'⟩ := ConcurrentGroup.mem_sequences.mp hs
        rw [if_neg (Nat.ne_of_lt hnext)] at hi
        simp [((h.sequences next g hg i s hi hs' (by simp)).ahead hnext).1]
    exact hnone.trans_le (Nat.zero_le _)
  · obtain ⟨hconcurrency, hunderflow, hbefore, hleft, hpassed, hmoments⟩ := h.marks
    have hlog : ∀ j r n, .groupCompleted j r n ∈ (b.leaveGroup a.remainingIncompleteEntries next).log ↔
        .groupCompleted j r n ∈ b.log ∨
          j = b.execution.groupIndex ∧ r = a.remainingIncompleteEntries ∧ n = next := by
      intro j r n
      simp [BunTest.leaveGroup, modifyGroup, emit]
    refine ⟨?_, ?_, ?_, ?_, ?_, ?_⟩
    · intro hne i n hm
      exact hconcurrency hne i n (by simpa [BunTest.leaveGroup, modifyGroup, emit] using hm)
    · simpa [BunTest.leaveGroup, modifyGroup, emit] using hunderflow
    · intro j hj
      exact (hbefore j ((hstarted j).mp hj)).trans hnext.le
    · intro j r n hm
      simp only [hstarted]
      rcases (hlog j r n).mp hm with hm | ⟨rfl, rfl, rfl⟩
      · obtain ⟨hr, hn, hbetween⟩ := hleft j r n hm
        exact ⟨hr, hn.trans hnext.le, hbetween⟩
      · exact ⟨hremaining, Nat.le_refl n, fun j' hj _ hj' => absurd (hbefore j' hj') (Nat.not_le_of_lt hj)⟩
    · intro j hj
      rw [hstarted]
      rcases Nat.lt_trichotomy j b.execution.groupIndex with hlt | heq | hgt
      · apply (hpassed j hlt).imp id
        rintro ⟨j₀, r, n, hm, hin⟩
        exact ⟨j₀, r, n, (hlog j₀ r n).mpr (.inl hm), hin⟩
      · exact .inl (heq ▸ hbegun)
      · exact .inr ⟨b.execution.groupIndex, _, next, (hlog _ _ _).mpr (.inr ⟨rfl, rfl, rfl⟩), hgt, hj⟩
    · intro m hm
      exact hmoments m (by simpa [BunTest.leaveGroup, modifyGroup, emit] using hm)

theorem Settled.leaveGroup {k next : Nat} (h : Settled o b k)
    (ha : b.execution.activeGroup = some a) (hexecuting : a.executing = true)
    (hdone : ∀ s ∈ a.sequences b.execution.sequences, s.executing = false ∧ s.incomplete = false)
    (hnext : b.execution.groupIndex < next) : Settled o (b.leaveGroup a.remainingIncompleteEntries next) 0 := by
  refine ⟨h.inv.leaveGroup ha hexecuting hdone hnext, ?_⟩
  intro g d htoken
  have hold := h.tokens g d (by simpa [Token, BunTest.leaveGroup, modifyGroup, emit] using htoken)
  left
  show g < next
  omega

/-- What is known when a group is waited for, or all are done. -/
def Waits (b : BunTest) : StepResult → Prop
  | .waiting timeout => 0 < b.execution.executing ∧
    ∀ a, b.execution.activeGroup = some a → ∀ s ∈ a.sequences b.execution.sequences, s.executing = true →
      Seen (some timeout) s
  | .complete => b.execution.activeGroup = none

/-- A group that is not executing is started. -/
theorem Settled.enterGroup (h : Settled o b k) (ha : b.execution.activeGroup = some a) :
    let b' := if a.executing then b else b.startGroup
    Settled o b' k ∧ b'.maxConcurrency = b.maxConcurrency ∧ b'.execution.groupIndex = b.execution.groupIndex ∧
      ∃ a', b'.execution.activeGroup = some a' ∧ a'.range = a.range ∧ a'.executing = true := by
  cases hexecuting : a.executing with
  | true => exact ⟨h, rfl, rfl, a, ha, rfl, hexecuting⟩
  | false =>
    refine ⟨⟨h.inv.startGroup, ?_⟩, rfl, rfl, {a with executing := true}, ?_, rfl, rfl⟩
    · intro g d htoken
      apply h.tokens g d
      simpa [Token, BunTest.startGroup, modifyGroup, emit] using htoken
    · rw [Execution.activeGroup] at ha
      simp [Execution.activeGroup, BunTest.startGroup, modifyGroup, emit, ha]

theorem lt_next {j : Nat} (h : j < a.failureSkipTo) (sequences : List ExecutionSequence) : j < a.next j sequences := by
  rw [ConcurrentGroup.next]
  split
  · exact h
  · exact Nat.lt_succ_self j

theorem stepGroup_ok (ho : o.Grouped) (h : Settled o b k)
    (heq : stepGroup w fuel b now = some (result, b')) :
    (∃ k', Settled o b' k') ∧ b'.Waits result := by
  induction fuel generalizing b k now with
  | zero => cases heq
  | succ fuel ih =>
    rw [stepGroup] at heq
    cases ha : b.execution.activeGroup with
    | none =>
      rw [ha] at heq
      cases heq
      exact ⟨⟨k, h⟩, ha⟩
    | some a =>
      obtain ⟨hsettled, -, hindex, a₁, ha₁, hrange₁, hexecuting₁⟩ := h.enterGroup ha
      simp only [ha, Option.bind_eq_bind, Option.bind_eq_some_iff] at heq
      change ∃ r, stepGroupOne w fuel b.execution.groupIndex _ 0 none (if a.executing then b else b.startGroup) now =
        some r ∧ _ at heq
      generalize (if a.executing = true then b else b.startGroup) = b₁ at *
      obtain ⟨⟨timeout, now₂, b₂⟩, hone, heq⟩ := heq
      have hlooking : Looking o b₁ a 0 0 none :=
        ⟨⟨k, hsettled, Nat.zero_le _⟩, ⟨a₁, ha₁, hrange₁⟩, Nat.zero_le _, by simp [executingBefore],
          fun q hq => absurd hq (Nat.not_lt_zero q), by simp⟩
      rw [List.range_eq_range'] at hone
      obtain ⟨hframe, ⟨k₂, hsettled₂⟩, hseen, hwaits, hdone⟩ :=
        stepGroupOne_ok ho.partition hlooking hindex.symm (Nat.zero_add _) Nat.pos_of_ne_zero hone
      obtain ⟨a₂, ha₂, hrange₂, -, hexecuting₂⟩ := hframe.activeGroup ha₁
      have hsequences : a₂.sequences b₂.execution.sequences = a.sequences b₂.execution.sequences :=
        ConcurrentGroup.sequences_congr (hrange₂.trans hrange₁)
      have hg : b₂.execution.groupIndex = b.execution.groupIndex := hframe.groupIndex.trans hindex
      cases timeout with
      | some timeout =>
        cases heq
        refine ⟨⟨k₂, hsettled₂⟩, hwaits.mp rfl, ?_⟩
        intro a' ha' s hs
        cases ha₂.symm.trans ha'
        exact hseen s (hsequences ▸ hs)
      | none =>
        have hget : b₂.execution.groups[b.execution.groupIndex]? = some a₂ := by
          rw [← hg]
          exact ha₂
        simp only [hget] at heq
        have hskip : b.execution.groupIndex < a₂.failureSkipTo := by
          have hranges := congrArg (fun l => l[b.execution.groupIndex]?) hsettled₂.inv.ranges
          simp only [List.getElem?_map, hget, Option.map_some] at hranges
          obtain ⟨g, hog, hrange⟩ := Option.map_eq_some_iff.mp hranges.symm
          have hto : g.failureSkipTo = a₂.failureSkipTo := congrArg (fun r => r.2.2) hrange
          exact hto ▸ ho.ahead _ g hog
        have hleft := hsettled₂.leaveGroup ha₂ (hexecuting₂.trans hexecuting₁) (by rw [hsequences]; exact hdone rfl)
          (hg ▸ lt_next hskip b₂.execution.sequences)
        rw [leaveGroup, hg] at hleft
        exact ih hleft heq

/-! ### Deadlines -/

/-- No deadline of an executing entry is missed, if the timer is set to `m` as well when the
queue is empty. -/
def Timely (b : BunTest) (m : Timespec) : Prop :=
  ∀ a, b.execution.activeGroup = some a → ∀ i s, a.Has i → b.execution.sequences[i]? = some s →
    s.executing = true → ∀ entry, s.activeEntry = some entry → entry.timespec ≠ 0 →
      b.Covers entry.timespec ∨ m ≠ 0 ∧ m ≤ entry.timespec

def Status.timeout : Status → Timespec
  | .done => 0
  | .execute timeout => timeout

theorem minIgnoreEpoch_zero (a : Timespec) : minIgnoreEpoch a 0 = a := by
  rw [minIgnoreEpoch]
  grind

theorem Timely.min (h : b.Timely m) (t : Timespec) : b.Timely (minIgnoreEpoch m t) := by
  intro a ha i s hi hs hexecuting entry hentry hne
  exact (h a ha i s hi hs hexecuting entry hentry hne).imp id minIgnoreEpoch_le_left

theorem Timely.steps (h : b.Timely m) (hsteps : b.Steps b' i) (hstepped : Stepped o b' k i (some status)) :
    b'.Timely (minIgnoreEpoch m status.timeout) := by
  intro a' ha' j s' hj hs' hexecuting entry hentry hne
  by_cases hij : j = i
  · subst hij
    cases status with
    | done =>
      obtain ⟨-, s, hs, hnot, -⟩ := hstepped
      cases hs.symm.trans hs'
      rw [hnot] at hexecuting
      cases hexecuting
    | execute timeout =>
      obtain ⟨-, s, entry', hs, -, hentry', rfl⟩ := hstepped
      cases hs.symm.trans hs'
      cases hentry'.symm.trans hentry
      exact .inr (minIgnoreEpoch_le_right ⟨hne, Nat.le_refl _⟩)
  · obtain ⟨a, ha, hrange, -⟩ := hsteps.toFrame.symm.activeGroup ha'
    obtain ⟨s, hs⟩ := Execution.getElem?_of_length hsteps.length hs'
    have hquiet := hsteps.others j s s' hij hs hs'
    have hj' : a.Has j := by
      have hstart : a.sequenceStart = a'.sequenceStart := congrArg Prod.fst hrange
      have hend : a.sequenceEnd = a'.sequenceEnd := congrArg (fun r => r.2.1) hrange
      rwa [ConcurrentGroup.Has, hstart, hend]
    apply (h a ha j s hj' hs (hquiet.executing ▸ hexecuting) entry (hquiet.activeEntry ▸ hentry) hne).imp
    · exact hsteps.covers _
    · exact minIgnoreEpoch_le_left

theorem Waits.timely {timeout : Timespec} (h : b.Waits (.waiting timeout)) (m : Timespec) :
    b.Timely (minIgnoreEpoch m timeout) := by
  intro a ha i s hi hs hexecuting entry hentry hne
  rcases h.2 a ha s (ConcurrentGroup.mem_sequences.mpr ⟨i, hi, hs⟩) hexecuting with ⟨hnot, -⟩ | ⟨-, t, entry', ht, hentry', hle⟩
  · rw [hnot] at hexecuting
    cases hexecuting
  · cases ht
    cases hentry'.symm.trans hentry
    exact .inr (minIgnoreEpoch_le_right (hle hne))

/-! ### Starting the next sequence -/

theorem Steps.executing (h : b.Steps b' i) (ha : b.execution.activeGroup = some a) (hi : a.Has i)
    (hs : b.execution.sequences[i]? = some s) (hs' : b'.execution.sequences[i]? = some s') :
    b'.execution.executing + (if s.executing then 1 else 0) =
      b.execution.executing + (if s'.executing then 1 else 0) := by
  rw [← executing_setSequence ha hi hs s']
  congr 1
  obtain ⟨a', ha', hrange, -⟩ := h.toFrame.activeGroup ha
  apply Execution.executing_congr
  · show b'.execution.activeGroup.map _ = b.execution.activeGroup.map _
    rw [ha, ha', Option.map_some, Option.map_some, hrange]
  · apply List.ext_getElem?
    intro j
    rw [List.getElem?_map, List.getElem?_map]
    show _ = (b.execution.sequences.set i s')[j]?.map _
    by_cases hij : j = i
    · subst hij
      rw [hs', List.getElem?_set_self (List.getElem?_eq_some_iff.mp hs).choose]
    · rw [List.getElem?_set_ne (Ne.symm hij)]
      cases hget' : b'.execution.sequences[j]? with
      | none =>
        rw [List.getElem?_eq_none_iff, h.length, ← List.getElem?_eq_none_iff] at hget'
        rw [hget']
      | some s₁' =>
        obtain ⟨s₁, hget⟩ := Execution.getElem?_of_length h.length hget'
        rw [hget, Option.map_some, Option.map_some, (h.others j s₁ s₁' hij hget hget').executing]

def skipSequence (b : BunTest) : BunTest :=
  b.modifyGroup b.execution.groupIndex fun group => {group with nextSequenceIndex := group.nextSequenceIndex + 1}

theorem Settled.skipSequence (h : Settled o b k)
    (ha : b.execution.activeGroup = some a) (hlt : a.nextSequenceIndex < k) : Settled o b.skipSequence k := by
  obtain ⟨hinv, htokens⟩ := h
  have hgroups : ∀ j g', b.skipSequence.execution.groups[j]? = some g' → ∃ g, b.execution.groups[j]? = some g ∧
      g' = if b.execution.groupIndex = j then {g with nextSequenceIndex := g.nextSequenceIndex + 1} else g :=
    fun j g' hg' => getElem?_modifyGroup (b := b) hg'
  have hranges : b.skipSequence.execution.groups.map ConcurrentGroup.range =
      b.execution.groups.map ConcurrentGroup.range :=
    b.ranges_modifyGroup b.execution.groupIndex
      (f := fun g => {g with nextSequenceIndex := g.nextSequenceIndex + 1}) fun _ => rfl
  refine ⟨⟨hinv.phase, hinv.limit, hranges.trans hinv.ranges, hinv.length, ?_, ?_, ?_, by simp, ?_, ?_⟩, htokens⟩
  · intro j g' hg'
    obtain ⟨g, hg, rfl⟩ := hgroups j g' hg'
    obtain ⟨hremaining, hahead, hactive⟩ := hinv.groups j g hg
    split
    · rename_i hj
      exact ⟨hremaining, fun hlt => absurd (hj ▸ hlt) (Nat.lt_irrefl _), hactive⟩
    · exact ⟨hremaining, hahead, hactive⟩
  · intro g' hg'
    obtain ⟨g, hg, rfl⟩ := hgroups _ g' hg'
    cases ha.symm.trans hg
    exact ⟨by simpa [BunTest.skipSequence, modifyGroup] using Nat.succ_le_of_lt hlt,
      by simpa [BunTest.skipSequence, modifyGroup] using (hinv.next a ha).2⟩
  · intro j g' hg' i s hi hs _
    obtain ⟨g, hg, rfl⟩ := hgroups j g' hg'
    have hplace : (if b.execution.groupIndex = j then {g with nextSequenceIndex := g.nextSequenceIndex + 1}
        else g).sequenceStart = g.sequenceStart := by split <;> rfl
    have hi' : g.Has i := by split at hi <;> exact hi
    obtain ⟨hexec, hcompl, hbehind, hahead, hdone, hfresh⟩ := hinv.sequences j g hg i s hi' hs (by simp)
    rw [hplace]
    exact ⟨hexec, hcompl, hbehind, hahead, hdone, hfresh⟩
  · intro hne
    have heq : b.skipSequence.execution.executing = b.execution.executing :=
      Execution.executing_congr (activeGroup_range hranges rfl) rfl
    exact heq.trans_le (hinv.concurrency hne)
  · obtain ⟨hconcurrency, hunderflow, hbegun, hleft, hpassed, hmoments⟩ := hinv.marks
    exact ⟨hconcurrency, hunderflow, hbegun, hleft, hpassed, hmoments⟩

theorem skipSequence_timely (h : b.Timely m) : b.skipSequence.Timely m := by
  intro a' ha' i s hi
  obtain ⟨a, ha, rfl⟩ := getElem?_modifyGroup (b := b) ha'
  apply h a ha i s
  split at hi <;> exact hi

/-- What is known when a sequence was looked for. -/
structure Searched (o : Loaded) (b b' : BunTest) (timeout : Option Timespec) : Prop where
  settled : ∃ k, Settled o b' k ∧ (timeout = none → ∀ a, b'.execution.activeGroup = some a →
    k = a.sequenceEnd - a.sequenceStart)
  groupIndex : b'.execution.groupIndex = b.execution.groupIndex
  timely : ∀ m, b.Timely m → b'.Timely (minIgnoreEpoch m (timeout.getD 0))
  found : timeout.isSome = true → 0 < b'.execution.executing

theorem Searched.skip {b b₁ b' : BunTest} {timeout : Option Timespec} (h : Searched o b₁.skipSequence b' timeout)
    (hindex : b₁.execution.groupIndex = b.execution.groupIndex) (htimely : ∀ m, b.Timely m → b₁.Timely m) :
    Searched o b b' timeout :=
  ⟨h.settled, h.groupIndex.trans hindex, fun m hm => h.timely m (skipSequence_timely (htimely m hm)), h.found⟩

theorem skipSequence_activeGroup (ha : b.execution.activeGroup = some a) :
    b.skipSequence.execution.activeGroup = some {a with nextSequenceIndex := a.nextSequenceIndex + 1} := by
  rw [Execution.activeGroup] at ha
  simp [Execution.activeGroup, skipSequence, modifyGroup, ha]

theorem skipSequence_executing (b : BunTest) : b.skipSequence.execution.executing = b.execution.executing :=
  Execution.executing_congr (activeGroup_range (b.ranges_modifyGroup b.execution.groupIndex fun _ => rfl) rfl) rfl

theorem startNext_ok (ho : Partition 0 o.groups o.sequences.length) {timeout : Option Timespec} (h : Settled o b k)
    (ha : b.execution.activeGroup = some a) (hg : g = b.execution.groupIndex)
    (hslot : b.maxConcurrency ≠ 0 → b.execution.executing < b.maxConcurrency)
    (heq : startNext w g fuel b now = some (timeout, now', b')) : Searched o b b' timeout := by
  induction fuel generalizing b k now a with
  | zero => cases heq
  | succ fuel ih =>
    subst hg
    have ha' : b.execution.groups[b.execution.groupIndex]? = some a := ha
    obtain ⟨hnext, hk⟩ := h.inv.next a ha
    rw [startNext, ha'] at heq
    dsimp only at heq
    split at heq
    · cases heq
      refine ⟨⟨k, h, ?_⟩, rfl, fun m hm => hm.min _, nofun⟩
      intro _ a' ha'
      cases ha.symm.trans ha'
      omega
    · rename_i hlt
      have hp : a.nextSequenceIndex < a.sequenceEnd - a.sequenceStart := by omega
      split at heq
      · -- it was started before
        rename_i hany
        obtain ⟨s, hs, hexecuting⟩ := (Option.any_eq_true _ _).mp hany
        have hi : a.Has (a.sequenceStart + a.nextSequenceIndex) := ⟨Nat.le_add_right _ _, by omega⟩
        have hstarted : a.nextSequenceIndex < k := by
          by_contra hle
          have hfresh := ((h.inv.sequences _ a ha _ s hi hs nofun).fresh rfl (by omega)).1
          rw [hexecuting] at hfresh
          cases hfresh
        exact (ih (h.skipSequence ha hstarted) (skipSequence_activeGroup ha) rfl
          (b.skipSequence_executing ▸ hslot) heq).skip rfl fun _ hm => hm
      · rename_i hany
        simp only [Option.bind_eq_bind, Option.bind_eq_some_iff] at heq
        obtain ⟨⟨status, now₁, b₁⟩, hstep, heq⟩ := heq
        obtain ⟨hsteps, k₁, -, hk₁, hsettled, hstepped⟩ := h.step ho ha hnext hp (fun _ => hslot) hstep
        cases status with
        | execute timeout' =>
          cases heq
          have hstepped' := hstepped
          obtain ⟨-, s, entry, hs, hexecuting, -⟩ := hstepped
          obtain ⟨a₁, ha₁, hrange, -⟩ := hsteps.toFrame.activeGroup ha
          refine ⟨⟨k₁, hsettled, nofun⟩, hsteps.groupIndex, fun m hm => hm.steps hsteps hstepped', fun _ => ?_⟩
          have hstart : a₁.sequenceStart = a.sequenceStart := congrArg Prod.fst hrange
          have hend : a₁.sequenceEnd = a.sequenceEnd := congrArg (fun r => r.2.1) hrange
          exact executing_pos ha₁ ⟨by omega, by omega⟩ hs hexecuting
        | done =>
          have hstepped' := hstepped
          obtain ⟨-, s', hs', hexecuting', -⟩ := hstepped
          obtain ⟨a₁, ha₁, hrange, hnext₁, -⟩ := hsteps.toFrame.activeGroup ha
          have hindex := hsteps.groupIndex
          have hcount : b₁.execution.executing = b.execution.executing := by
            obtain ⟨s, hs⟩ := Execution.getElem?_of_length hsteps.length hs'
            have hnot : s.executing = false := by
              rw [hs] at hany
              simpa using hany
            have := hsteps.executing ha ⟨Nat.le_add_right _ _, by omega⟩ hs hs'
            rw [hnot, hexecuting'] at this
            simpa using this
          have heq' : startNext w b.execution.groupIndex fuel b₁.skipSequence now₁ = some (timeout, now', b') := by
            rw [skipSequence, hindex]
            exact heq
          refine (ih (hsettled.skipSequence ha₁ (by omega)) (skipSequence_activeGroup ha₁) hindex.symm ?_ heq').skip
            hindex ?_
          · rw [b₁.skipSequence_executing, hcount]
            show b₁.maxConcurrency ≠ 0 → _ < b₁.maxConcurrency
            rw [hsteps.maxConcurrency]
            exact hslot
          · intro m hm
            have := hm.steps hsteps hstepped'
            rwa [Status.timeout, minIgnoreEpoch_zero] at this

/-! ### Steps -/

/-- Something is awaited, or all sequences are going to be looked at, and no deadline is missed. -/
structure Awake (b : BunTest) (m : Timespec) : Prop where
  alive : 0 < b.execution.executing ∨ .start ∈ b.resultQueue
  timely : b.Timely m

/-- What is known after a step for `data`, which was taken out of the queue. -/
def Advanced (b b' : BunTest) (data : RefData) : StepResult → Prop
  | .waiting timeout => ∀ m, (data ≠ .start → b.Awake m) → b'.Awake (minIgnoreEpoch m timeout)
  | .complete => b'.execution.activeGroup = none

theorem Waits.advanced {data : RefData} (h : b'.Waits result) :
    b.Advanced b' data result := by
  cases result with
  | waiting timeout => exact fun m _ => ⟨.inl h.1, h.timely m⟩
  | complete => exact h

/-- Where all sequences were started and some are not complete, something is awaited. -/
theorem Settled.awaits (h : Settled o b k) (ha : b.execution.activeGroup = some a) (hk : k = a.sequenceEnd - a.sequenceStart)
    (hremaining : a.remainingIncompleteEntries ≠ 0) : 0 < b.execution.executing := by
  rw [(h.inv.groups _ a ha).remaining, ← Nat.pos_iff_ne_zero, List.countP_pos_iff] at hremaining
  obtain ⟨s, hs, hinc⟩ := hremaining
  obtain ⟨i, hi, hs⟩ := ConcurrentGroup.mem_sequences.mp hs
  have hstarted := (h.inv.sequences _ a ha i s hi hs nofun).started rfl (by have := hi.1; have := hi.2; omega)
  rw [hinc] at hstarted
  exact executing_pos ha hi hs (hstarted.resolve_right nofun)

theorem Inv.exists_activeGroup {k k' : Nat} (h : Inv o b k none) (h' : Inv o b' k' none)
    (hindex : b'.execution.groupIndex = b.execution.groupIndex)
    (ha : b.execution.activeGroup = some a) : ∃ a', b'.execution.activeGroup = some a' := by
  have hlength : b'.execution.groups.length = b.execution.groups.length := by
    have := congrArg List.length (h'.ranges.trans h.ranges.symm)
    simpa using this
  have hlt := (List.getElem?_eq_some_iff.mp ha).choose
  rw [Execution.activeGroup, hindex]
  exact ⟨_, List.getElem?_eq_getElem (hlength ▸ hlt)⟩

theorem validSequence_executing {d : EntryData} (h : Settled o b k)
    (htoken : g < b.execution.groupIndex ∨ g = b.execution.groupIndex ∧ d.sequenceIndex < k)
    (hvalid : b.execution.validSequence (.execution g (some d)) = some i) :
    ∃ a s, b.execution.activeGroup = some a ∧ g = b.execution.groupIndex ∧ i = a.sequenceStart + d.sequenceIndex ∧
      a.Has i ∧ d.sequenceIndex < k ∧ b.execution.sequences[i]? = some s ∧ s.executing = true := by
  obtain ⟨a, d', s, ha, hdata, hi, hhas, hs, -, hentry⟩ := Execution.validSequence_eq_some hvalid
  cases hdata
  have hlt : d.sequenceIndex < k := htoken.elim (fun hlt => absurd hlt (Nat.lt_irrefl _)) And.right
  refine ⟨a, s, ha, rfl, hi, hhas, hlt, hs, ?_⟩
  have hinc : s.incomplete = true := by
    rw [ExecutionSequence.incomplete]
    cases hactive : s.activeEntry with
    | none => rw [hactive] at hentry; cases hentry
    | some entry => rfl
  have hstarted := (h.inv.sequences _ a ha i s hhas hs (by simp)).started rfl (by omega)
  rw [hinc] at hstarted
  exact hstarted.resolve_right (by simp)

/-- A result that counts: the sequence goes on, or others do. -/
theorem step_valid_ok (ho : o.Grouped) {d : EntryData} (h : Settled o b k)
    (htoken : g < b.execution.groupIndex ∨ g = b.execution.groupIndex ∧ d.sequenceIndex < k)
    (hvalid : b.execution.validSequence (.execution g (some d)) = some i) (heq : (do
      let (status, now, b) ← stepSequence w g d.sequenceIndex fuel
        ((b.accept (.execution g (some d))).advanceSequence w g i) now
      match status with
      | .execute timeout => some (StepResult.waiting timeout, b)
      | .done =>
        let (timeout, now, b) ← startNext w g fuel b now
        match timeout with
        | some timeout => some (.waiting timeout, b)
        | none =>
          if (b.execution.groups[g]?).any fun group => group.remainingIncompleteEntries = 0 then
            stepGroup w fuel b now
          else some (.waiting 0, b)) = some (result, b')) :
    (∃ k', Settled o b' k') ∧ b.Advanced b' (.execution g (some d)) result := by
  obtain ⟨a, s, ha, rfl, rfl, hi, hlt, hs, hexecuting⟩ := validSequence_executing h htoken hvalid
  have haccept : b.accept (.execution b.execution.groupIndex (some d)) =
      b.emit (.accepted (.execution b.execution.groupIndex (some d))) := by
    rw [accept, hvalid]
  rw [haccept] at heq
  have hhole : Inv o (b.emit (.accepted (.execution b.execution.groupIndex (some d)))) k
      (some (a.sequenceStart + d.sequenceIndex)) :=
    (h.inv.resume ha hi hs hexecuting).minor (minor_emit _ _ trivial fun _ => rfl)
  obtain ⟨hok, hadvanced⟩ := advanceSequence_ok ho.partition w hhole
  have hsteps₁ := (b.steps_emit (m := .accepted (.execution b.execution.groupIndex (some d))) (by simp)).trans hadvanced
  simp only [Option.bind_eq_bind, Option.bind_eq_some_iff] at heq
  obtain ⟨⟨status, now₂, b₂⟩, hstep, heq⟩ := heq
  obtain ⟨a₁, ha₁, hrange₁, -⟩ := hsteps₁.toFrame.activeGroup ha
  have hstart : a₁.sequenceStart = a.sequenceStart := congrArg Prod.fst hrange₁
  obtain ⟨hstepped, hsteps₂⟩ := stepSequence_ok ho.partition w ha₁ hsteps₁.groupIndex.symm (by rw [hstart]; exact hok) hstep
  rw [hstart] at hstepped hsteps₂
  have hsteps := hsteps₁.trans hsteps₂
  have hsettled : Settled o b₂ k := ⟨hstepped.inv, h.tokens.steps ha (Nat.le_refl k) hlt hsteps⟩
  have htimely : ∀ m, (RefData.execution b.execution.groupIndex (some d) ≠ .start → b.Awake m) →
      b₂.Timely (minIgnoreEpoch m status.timeout) :=
    fun m hm => (hm (by simp)).timely.steps hsteps hstepped
  obtain ⟨a₂, ha₂, hrange₂, -⟩ := hsteps.toFrame.activeGroup ha
  cases status with
  | execute timeout =>
    cases heq
    obtain ⟨-, s₂, entry, hs₂, hexecuting₂, -⟩ := hstepped
    have hi₂ : a₂.Has (a.sequenceStart + d.sequenceIndex) := by
      have hstart₂ : a₂.sequenceStart = a.sequenceStart := congrArg Prod.fst hrange₂
      have hend₂ : a₂.sequenceEnd = a.sequenceEnd := congrArg (fun r => r.2.1) hrange₂
      rwa [ConcurrentGroup.Has, hstart₂, hend₂]
    exact ⟨⟨k, hsettled⟩, fun m hm => ⟨.inl (executing_pos ha₂ hi₂ hs₂ hexecuting₂), htimely m hm⟩⟩
  | done =>
    obtain ⟨-, s₂, hs₂, hexecuting₂, -⟩ := hstepped
    have hslot : b₂.maxConcurrency ≠ 0 → b₂.execution.executing < b₂.maxConcurrency := by
      rw [hsteps.maxConcurrency]
      intro hne
      have hcount := hsteps.executing ha hi hs hs₂
      have hle := h.inv.concurrency hne
      rw [hexecuting, hexecuting₂] at hcount
      simp only [if_true, Bool.false_eq_true, if_false, slots] at hcount hle
      omega
    simp only [Option.bind_eq_some_iff] at heq
    obtain ⟨⟨timeout, now₃, b₃⟩, hnext, heq⟩ := heq
    obtain ⟨⟨k₃, hsettled₃, hall⟩, hindex₃, htimely₃, hfound⟩ :=
      startNext_ok ho.partition hsettled ha₂ hsteps.groupIndex.symm hslot hnext
    have htimely₃' : ∀ m, (RefData.execution b.execution.groupIndex (some d) ≠ .start → b.Awake m) →
        b₃.Timely (minIgnoreEpoch m (timeout.getD 0)) := by
      intro m hm
      have := htimely m hm
      rw [Status.timeout, minIgnoreEpoch_zero] at this
      exact htimely₃ m this
    cases timeout with
    | some timeout =>
      cases heq
      exact ⟨⟨k₃, hsettled₃⟩, fun m hm => ⟨.inl (hfound rfl), htimely₃' m hm⟩⟩
    | none =>
      obtain ⟨a₃, ha₃⟩ := hsettled.inv.exists_activeGroup hsettled₃.inv hindex₃ ha₂
      have hget₃ : b₃.execution.groups[b.execution.groupIndex]? = some a₃ := by
        rw [← hsteps.groupIndex, ← hindex₃]
        exact ha₃
      simp only [hget₃, Option.any_some, decide_eq_true_eq] at heq
      split at heq
      · obtain ⟨hsettled', hwaits⟩ := stepGroup_ok ho hsettled₃ heq
        exact ⟨hsettled', hwaits.advanced⟩
      · rename_i hremaining
        cases heq
        exact ⟨⟨k₃, hsettled₃⟩, fun m hm => ⟨.inl (hsettled₃.awaits ha₃ (hall rfl a₃ ha₃) hremaining), htimely₃' m hm⟩⟩

end Funbun.TestRunner.BunTest
