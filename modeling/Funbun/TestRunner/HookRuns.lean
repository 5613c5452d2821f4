import Funbun.TestRunner.Hooks
import Mathlib.Data.List.Nodup

/-! The hooks of a test in every run.

A reset leaves out what was registered and clears the deadlines, so every attempt begins with the
entries of the file (`Kept`) and goes on in order (`Follows`). What happens to the runner is, for
each of its sequences, a trail of steps (`Projected`). -/
namespace Funbun.TestRunner
open Library

/-! ### Entries -/

/-- Without the deadline -/
def ExecutionEntry.cleared (e : ExecutionEntry) : ExecutionEntry := {e with timespec := 0}

def ExecutionSequence.cleared (s : ExecutionSequence) : List ExecutionEntry := s.entries.map ExecutionEntry.cleared

def ExecutionEntry.collected (e : ExecutionEntry) : Bool := e.addedInPhase ≠ .execution

namespace ExecutionSequence

/-- A step that neither adds an entry nor begins again. -/
structure Stays (s s' : ExecutionSequence) : Prop where
  cleared : s'.cleared = s.cleared
  testEntry : s'.testEntry = s.testEntry
  retries : s'.remainingRetryCount = s.remainingRetryCount
  repeats : s'.remainingRepeatCount = s.remainingRepeatCount

theorem stays_started (s : ExecutionSequence) (now now' : Timespec) : s.Stays (s.started now now') := by
  obtain ⟨startedAt, timespec, heq⟩ := s.started_eq now now'
  rw [heq]
  refine ⟨?_, rfl, rfl, rfl⟩
  cases hremaining : s.remaining <;> simp [cleared, entries, hremaining, ExecutionEntry.cleared]

theorem stays_handleUncaughtException (s : ExecutionSequence) : s.Stays s.handleUncaughtException := by
  rw [handleUncaughtException]
  dsimp only
  split
  · split
    · split <;> exact ⟨rfl, rfl, rfl, rfl⟩
    · exact ⟨rfl, rfl, rfl, rfl⟩
  · exact ⟨rfl, rfl, rfl, rfl⟩

theorem stays_evaluateTimeout (s : ExecutionSequence) (now : Timespec) : s.Stays (s.evaluateTimeout now).2 := by
  rw [evaluateTimeout]
  split
  · exact ⟨rfl, rfl, rfl, rfl⟩
  · split <;> exact ⟨rfl, rfl, rfl, rfl⟩

theorem stays_skipEntry (s : ExecutionSequence) (mode : ScopeMode) : s.Stays (s.skipEntry mode) := by
  unfold skipEntry
  split
  · split <;> exact ⟨rfl, rfl, rfl, rfl⟩
  · exact ⟨rfl, rfl, rfl, rfl⟩

theorem stays_completeEntry (s : ExecutionSequence) : s.Stays s.completeEntry := by
  refine ⟨by rw [cleared, s.completeEntry_entries, cleared], ?_, ?_, s.completeEntry_repeats⟩
  · rw [completeEntry]
    split
    · rfl
    · dsimp only
      split
      · split <;> rfl
      · rfl
  · rw [completeEntry]
    split
    · rfl
    · dsimp only
      split
      · split <;> rfl
      · rfl

theorem Step.stays {s s' : ExecutionSequence} {e : Event} (h : s.Step e s') (hagain : e.again = false)
    (hmade : e.made = none) : s.Stays s' := by
  cases h with
  | started active waiting now now' => exact s.stays_started now now'
  | called active executing => exact ⟨rfl, rfl, rfl, rfl⟩
  | exception active => exact s.stays_handleUncaughtException
  | timeout active late => exact s.stays_evaluateTimeout _
  | registered active tag added unskipping => cases hmade
  | skipped mode => exact s.stays_skipEntry mode
  | expected count assertions => exact ⟨rfl, rfl, rfl, rfl⟩
  | completed active executing => exact s.stays_completeEntry
  | retried complete failed left now => cases hagain
  | repeated complete passed left => cases hagain
  | finished complete unretried unrepeated => exact ⟨rfl, rfl, rfl, rfl⟩

/-- What is left by a reset, if the first entry is one of the file. -/
theorem reset_eq {s : ExecutionSequence} {first : ExecutionEntry} {rest : List ExecutionEntry}
    (hcleared : s.cleared = first :: rest) (hfirst : first.collected = true) :
    s.reset.remaining = s.cleared.filter ExecutionEntry.collected := by
  obtain ⟨first, rest, hentries, rfl, rfl⟩ := List.map_eq_cons_iff.1 hcleared
  have hfilter : s.cleared.filter ExecutionEntry.collected =
      (s.entries.filter ExecutionEntry.collected).map ExecutionEntry.cleared := by
    rw [cleared, List.filter_map]
    rfl
  have hfirst' : first.collected = true := hfirst
  rw [hfilter, hentries, List.filter_cons_of_pos hfirst', reset, ← entries, hentries]
  rfl

end ExecutionSequence

/-! ### What is kept over all attempts -/

/-- New entries are not among those of the file, and all are different. -/
structure Fresh (file : List ExecutionEntry) (es : List Event) : Prop where
  distinct : (es.filterMap Event.made).Nodup
  unknown : ∀ id ∈ es.filterMap Event.made, id ∉ file.map ExecutionEntry.id

theorem Fresh.of_append {file : List ExecutionEntry} {es fs : List Event} (h : Fresh file (es ++ fs)) :
    Fresh file es := by
  obtain ⟨hdistinct, hunknown⟩ := h
  rw [List.filterMap_append] at hdistinct hunknown
  exact ⟨(List.nodup_append.1 hdistinct).1, fun id hid => hunknown id (List.mem_append_left _ hid)⟩

/-- The sequence of a test, when the events of it are `es`. -/
structure Kept (file : List ExecutionEntry) (test : ExecutionEntry) (es : List Event) (s : ExecutionSequence) :
    Prop where
  testEntry : s.testEntry = some test
  retries : s.remainingRetryCount + es.count .retried = test.retryCount
  repeats : s.remainingRepeatCount + es.count .repeated = test.repeatCount
  first : ∃ first rest, s.cleared = first :: rest ∧ first.collected = true
  collected : s.cleared.filter ExecutionEntry.collected = file.map ExecutionEntry.cleared
  ids : ∀ id ∈ s.cleared.map ExecutionEntry.id,
    id ∈ file.map ExecutionEntry.id ∨ id ∈ (rounds Event.again es).current.filterMap Event.made
  distinct : (s.cleared.map ExecutionEntry.id).Nodup
  starts : ∀ attempt ∈ (rounds Event.again es).all, ∀ id ∈ starts attempt,
    id ∈ file.map ExecutionEntry.id ∨ id ∈ attempt.filterMap Event.made

theorem map_id_cleared (l : List ExecutionEntry) :
    (l.map ExecutionEntry.cleared).map ExecutionEntry.id = l.map ExecutionEntry.id := by
  rw [List.map_map]
  rfl

theorem active_mem_cleared {s : ExecutionSequence} {entry : ExecutionEntry} (h : s.activeEntry = some entry) :
    entry.id ∈ s.cleared.map ExecutionEntry.id := by
  rw [ExecutionSequence.cleared, map_id_cleared]
  exact List.mem_map_of_mem (List.mem_append_right _ (List.mem_of_mem_head? h))

section Kept
variable {file : List ExecutionEntry} {test : ExecutionEntry} {es : List Event} {s s' : ExecutionSequence} {e : Event}

theorem Kept.reset_remaining (h : Kept file test es s) (s₁ : ExecutionSequence) (hentries : s₁.entries = s.entries) :
    s₁.reset.remaining = file.map ExecutionEntry.cleared := by
  have hcleared : s₁.cleared = s.cleared := by rw [ExecutionSequence.cleared, hentries, ExecutionSequence.cleared]
  obtain ⟨first, rest, hfirst, hcollected⟩ := h.first
  rw [ExecutionSequence.reset_eq (hcleared.trans hfirst) hcollected, hcleared, h.collected]

/-- A new attempt -/
theorem Kept.again (h : Kept file test es s) {s₁ : ExecutionSequence} (hentries : s₁.entries = s.entries)
    (htest : s₁.testEntry = s.testEntry) (hagain : e.again = true)
    (hretries : s₁.remainingRetryCount + (es ++ [e]).count .retried = test.retryCount)
    (hrepeats : s₁.remainingRepeatCount + (es ++ [e]).count .repeated = test.repeatCount) :
    Kept file test (es ++ [e]) s₁.reset ∧ s₁.reset.remaining = file.map ExecutionEntry.cleared := by
  obtain ⟨first, rest, hfirst, hcollected⟩ := h.first
  have hremaining := h.reset_remaining s₁ hentries
  have hreset : s₁.reset.cleared = file.map ExecutionEntry.cleared := by
    rw [ExecutionSequence.cleared, ExecutionSequence.entries, hremaining]
    show (([] : List ExecutionEntry) ++ file.map ExecutionEntry.cleared).map ExecutionEntry.cleared = _
    rw [List.nil_append, List.map_map]
    rfl
  have hkept : ∀ entry ∈ s.cleared.filter ExecutionEntry.collected, entry ∈ s.cleared := fun _ hmem =>
    List.mem_of_mem_filter hmem
  refine ⟨⟨htest.trans h.testEntry, hretries, hrepeats, ?_, ?_, ?_, ?_, ?_⟩, hremaining⟩
  · rw [hreset, ← h.collected, hfirst, List.filter_cons_of_pos hcollected]
    exact ⟨first, _, rfl, hcollected⟩
  · rw [hreset, ← h.collected, List.filter_filter]
    simp
  · intro id hid
    rw [hreset, map_id_cleared] at hid
    exact .inl hid
  · rw [hreset, ← h.collected]
    exact h.distinct.sublist (List.filter_sublist.map _)
  · rw [rounds_end es hagain, Rounds.all]
    intro attempt hattempt
    rcases List.mem_append.1 hattempt with hmem | hmem
    · exact h.starts attempt hmem
    · cases List.mem_singleton.1 hmem
      simp [TestRunner.starts]

theorem Kept.continue (h : Kept file test es s) (hagain : e.again = false)
    (htest : s'.testEntry = s.testEntry) (hretries : s'.remainingRetryCount = s.remainingRetryCount)
    (hrepeats : s'.remainingRepeatCount = s.remainingRepeatCount)
    (hfirst : ∃ first rest, s'.cleared = first :: rest ∧ first.collected = true)
    (hcollected : s'.cleared.filter ExecutionEntry.collected = s.cleared.filter ExecutionEntry.collected)
    (hids : ∀ id ∈ s'.cleared.map ExecutionEntry.id, id ∈ s.cleared.map ExecutionEntry.id ∨ e.made = some id)
    (hdistinct : (s'.cleared.map ExecutionEntry.id).Nodup)
    (hstarts : ∀ id, e.startedEntry = some id → id ∈ s.cleared.map ExecutionEntry.id) :
    Kept file test (es ++ [e]) s' := by
  have hmade : ∀ id, id ∈ (rounds Event.again es).current.filterMap Event.made →
      id ∈ ((rounds Event.again es).current ++ [e]).filterMap Event.made := by
    intro id hid
    rw [List.filterMap_append]
    exact List.mem_append_left _ hid
  have hcount : ∀ x : Event, x.again = true → (es ++ [e]).count x = es.count x := by
    intro x hx
    have hzero : [e].count x = 0 := by
      apply List.count_eq_zero_of_not_mem
      intro hmem
      rw [List.mem_singleton.1 hmem, hagain] at hx
      cases hx
    rw [List.count_append, hzero, Nat.add_zero]
  refine ⟨htest.trans h.testEntry, ?_, ?_, hfirst, hcollected.trans h.collected, ?_, hdistinct, ?_⟩
  · rw [hretries, hcount .retried rfl, h.retries]
  · rw [hrepeats, hcount .repeated rfl, h.repeats]
  · rw [rounds_continue es hagain]
    intro id hid
    rcases hids id hid with hold | hnew
    · exact (h.ids id hold).imp_right (hmade id)
    · right
      simp [List.filterMap_append, hnew]
  · rw [rounds_continue es hagain]
    intro attempt hattempt id hid
    rcases List.mem_append.1 hattempt with hmem | hmem
    · exact h.starts attempt (List.mem_append_left _ hmem) id hid
    · cases List.mem_singleton.1 hmem
      rw [starts_append, List.mem_append] at hid
      rcases hid with hid | hid
      · exact (h.starts _ (List.mem_append_right _ (List.mem_singleton_self _)) id hid).imp_right (hmade id)
      · rw [Option.mem_toList] at hid
        exact (h.ids id (hstarts id hid)).imp_right (hmade id)

theorem Kept.stays (h : Kept file test es s) (hagain : e.again = false) (hstays : s.Stays s')
    (hstarts : ∀ id, e.startedEntry = some id → id ∈ s.cleared.map ExecutionEntry.id) : Kept file test (es ++ [e]) s' := by
  obtain ⟨hcleared, htest, hretries, hrepeats⟩ := hstays
  apply h.continue hagain htest hretries hrepeats _ _ _ _ hstarts
  · rw [hcleared]
    exact h.first
  · rw [hcleared]
  · rw [hcleared]
    exact fun id hid => .inl hid
  · rw [hcleared]
    exact h.distinct

theorem mem_made_of_current {id : Nat} (h : id ∈ (rounds Event.again es).current.filterMap Event.made) :
    id ∈ es.filterMap Event.made := by
  have hnone : ∀ e : Event, e.again = true → e.made = none := by
    intro e he
    cases e <;> first | rfl | cases he
  rw [← flatMap_rounds Event.made hnone, Rounds.all, List.flatMap_append, List.flatMap_singleton]
  exact List.mem_append_right _ h

theorem Kept.hook (h : Kept file test es s) {entry hook : ExecutionEntry} (hactive : s.activeEntry = some entry)
    (tag : HookTag) (hadded : hook.addedInPhase = .execution)
    (hfresh : Fresh file (es ++ [.registered tag hook.id entry.id])) :
    Kept file test (es ++ [.registered tag hook.id entry.id]) (s.addHook tag hook) := by
  obtain ⟨front, back, hne, hremaining, hremaining'⟩ := s.addHook_remaining (by rw [hactive]; rfl) tag hook
  have hpassed : (s.addHook tag hook).passed = s.passed := by cases tag <;> rfl
  have hcleared : s.cleared = (s.passed ++ front).map ExecutionEntry.cleared ++ back.map ExecutionEntry.cleared := by
    rw [ExecutionSequence.cleared, ExecutionSequence.entries, hremaining]
    simp
  have hcleared' : (s.addHook tag hook).cleared =
      (s.passed ++ front).map ExecutionEntry.cleared ++ hook.cleared :: back.map ExecutionEntry.cleared := by
    rw [ExecutionSequence.cleared, ExecutionSequence.entries, hpassed, hremaining']
    simp
  have hhook : hook.cleared.collected = false := by
    simp [ExecutionEntry.cleared, ExecutionEntry.collected, hadded]
  apply h.continue (e := .registered tag hook.id entry.id) rfl
  · cases tag <;> rfl
  · cases tag <;> rfl
  · cases tag <;> rfl
  · obtain ⟨first, rest, hfirst, hcollected⟩ := h.first
    obtain ⟨first', rest', hsplit⟩ := List.exists_cons_of_ne_nil (List.append_ne_nil_of_right_ne_nil s.passed hne)
    rw [hcleared, hsplit, List.map_cons, List.cons_append] at hfirst
    rw [hcleared', hsplit, List.map_cons, List.cons_append, (List.cons.inj hfirst).1]
    exact ⟨first, _, rfl, hcollected⟩
  · rw [hcleared', hcleared, List.filter_append, List.filter_append, List.filter_cons_of_neg (by simp [hhook])]
  · intro id hid
    rw [hcleared', List.map_append, List.map_cons, List.mem_append, List.mem_cons] at hid
    rw [hcleared, List.map_append, List.mem_append]
    rcases hid with hid | rfl | hid
    · exact .inl (.inl hid)
    · exact .inr rfl
    · exact .inl (.inr hid)
  · have hnew : hook.id ∉ s.cleared.map ExecutionEntry.id := by
      intro hmem
      have hsplit := hfresh.distinct
      rw [List.filterMap_append, List.nodup_append] at hsplit
      rcases h.ids _ hmem with hfile | hmade
      · exact hfresh.unknown hook.id (by simp [List.filterMap_append, Event.made]) hfile
      · exact hsplit.2.2 _ (mem_made_of_current hmade) hook.id (by simp [Event.made]) rfl
    have hdistinct := h.distinct
    rw [hcleared, List.map_append] at hdistinct hnew
    rw [hcleared', List.map_append, List.map_cons]
    exact List.perm_middle.nodup_iff.2 (List.nodup_cons.2 ⟨hnew, hdistinct⟩)
  · simp [Event.startedEntry]

end Kept

/-! ### Attempt after attempt -/

/-- The hooks around a test, the outermost scope first before it and last behind it. -/
def testLayout (parents : List EachHooks) (test : ExecutionEntry) : Layout where
  before := (parents.map EachHooks.beforeEach).reverse.flatten.map ExecutionEntry.id
  test := test.id
  after := (parents.map EachHooks.afterEach).flatten.map ExecutionEntry.id

theorem testEntries_keys (parents : List EachHooks) {test : ExecutionEntry} (hcallback : test.base.hasCallback = true) :
    ((testEntries parents test).map ExecutionEntry.cleared).map ExecutionEntry.key = (testLayout parents test).keys [] := by
  rw [testEntries, if_pos hcallback]
  simp [Layout.keys, Layout.behind, testLayout, afterHooks, finishedHooks, ExecutionEntry.key, ExecutionEntry.cleared,
    Function.comp_def]

/-- The sequence of a test when it has made some attempts, each of them in order. -/
structure Follows (parents : List EachHooks) (test : ExecutionEntry) (es : List Event) (s : ExecutionSequence) : Prop
    extends Kept (testEntries parents test) test es s where
  current : (testLayout parents test).Timely (rounds Event.again es).current →
    InAttempt (testLayout parents test) (rounds Event.again es).current s
  ended : ∀ attempt ∈ (rounds Event.again es).ended, (testLayout parents test).Timely attempt →
    TestRunner.starts attempt = (testLayout parents test).plan attempt

section Follows
variable {parents : List EachHooks} {test : ExecutionEntry} {es : List Event} {s s' : ExecutionSequence} {e : Event}

theorem Follows.distinct_plan (h : Follows parents test es s)
    (hattempt : InAttempt (testLayout parents test) (rounds Event.again es).current s) :
    ((testLayout parents test).before ++ [(testLayout parents test).test] ++
      (testLayout parents test).behind (rounds Event.again es).current).Nodup := by
  rw [← hattempt.ids, ExecutionSequence.passedIds, ← List.map_append]
  have hdistinct := h.distinct
  rwa [ExecutionSequence.cleared, map_id_cleared] at hdistinct

theorem Follows.again (h : Follows parents test es s) (hcallback : test.base.hasCallback = true)
    (hcomplete : s.remaining = []) (s₁ : ExecutionSequence) (hentries : s₁.entries = s.entries)
    (htest : s₁.testEntry = s.testEntry) (hagain : e.again = true)
    (hretries : s₁.remainingRetryCount + (es ++ [e]).count .retried = test.retryCount)
    (hrepeats : s₁.remainingRepeatCount + (es ++ [e]).count .repeated = test.repeatCount) :
    Follows parents test (es ++ [e]) s₁.reset := by
  obtain ⟨hkept, hremaining⟩ := h.toKept.again hentries htest hagain hretries hrepeats
  refine ⟨hkept, ?_, ?_⟩
  · rw [rounds_end es hagain]
    intro _
    apply InAttempt.begin rfl _ _ rfl rfl
    · rw [hremaining, testEntries_keys parents hcallback]
    · rw [hkept.testEntry]
      rfl
  · rw [rounds_end es hagain]
    intro attempt hattempt htimely
    rcases List.mem_append.1 hattempt with hmem | hmem
    · exact h.ended attempt hmem htimely
    · cases List.mem_singleton.1 hmem
      exact (h.current htimely).starts_eq hcomplete

theorem Follows.step (h : Follows parents test es s) (hcallback : test.base.hasCallback = true) (hstep : s.Step e s')
    (hfresh : Fresh (testEntries parents test) (es ++ [e])) : Follows parents test (es ++ [e]) s' := by
  cases hagain : e.again with
  | true =>
    cases hstep with
    | retried complete failed left now =>
      have hflaky : (s.addFlakyAttempt now).entries = s.entries ∧ (s.addFlakyAttempt now).testEntry = s.testEntry ∧
          (s.addFlakyAttempt now).remainingRepeatCount = s.remainingRepeatCount := by
        rw [ExecutionSequence.addFlakyAttempt]
        split <;> exact ⟨rfl, rfl, rfl⟩
      apply h.again (e := .retried) hcallback complete
        {s.addFlakyAttempt now with remainingRetryCount := s.remainingRetryCount - 1} hflaky.1 hflaky.2.1 rfl
      · have hretries := h.retries
        rw [List.count_append, List.count_singleton_self]
        show s.remainingRetryCount - 1 + _ = _
        omega
      · have hzero : [Event.retried].count .repeated = 0 := rfl
        rw [List.count_append, hzero, Nat.add_zero]
        exact hflaky.2.2 ▸ h.repeats
    | repeated complete passed left =>
      apply h.again (e := .repeated) hcallback complete
        {s with remainingRepeatCount := s.remainingRepeatCount - 1} rfl rfl rfl
      · have hzero : [Event.repeated].count .retried = 0 := rfl
        rw [List.count_append, hzero, Nat.add_zero]
        exact h.retries
      · have hrepeats := h.repeats
        rw [List.count_append, List.count_singleton_self]
        show s.remainingRepeatCount - 1 + _ = _
        omega
    | _ => cases hagain
  | false =>
    have hkept : Kept (testEntries parents test) test (es ++ [e]) s' := by
      cases hmade : e.made with
      | none =>
        apply h.toKept.stays hagain (hstep.stays hagain hmade)
        intro id hid
        cases hstep with
        | started active waiting now now' =>
          cases hid
          exact active_mem_cleared active
        | _ => cases hid
      | some id =>
        cases hstep with
        | registered active tag added unskipping => exact h.toKept.hook active tag added hfresh
        | _ => cases hmade
    refine ⟨hkept, ?_, ?_⟩
    · rw [rounds_continue es hagain]
      intro htimely
      have hattempt := h.current htimely.of_append
      exact hattempt.step (h.distinct_plan hattempt) hstep hagain htimely
    · rw [rounds_continue es hagain]
      exact h.ended

end Follows

/-! ### What the log tells of a sequence -/

/-- What is seen of an event -/
inductive Sign where
  | started
  | called (entry : Nat)
  | completed
  | retried
  | repeated
  | finished
  deriving DecidableEq

def Event.sign : Event → Option Sign
  | .started _ => some .started
  | .called entry => some (.called entry)
  | .completed _ => some .completed
  | .retried => some .retried
  | .repeated => some .repeated
  | .finished => some .finished
  | .failed _ | .registered _ _ _ | .updated => none

/-- What a mark tells of the `i`-th sequence. A token is for a sequence by its group and the place in it. -/
def Mark.sign (groups : List ConcurrentGroup) (i : Nat) : Mark → Option Sign
  | .entryStarted j _ => if j = i then some .started else none
  | .callbackQueued (.execution g (some d)) =>
    match groups[g]? with
    | none => none
    | some a => if d.place a = i then some (.called d.entry) else none
  | .entryCompleted j => if j = i then some .completed else none
  | .sequenceRetried j => if j = i then some .retried else none
  | .sequenceRepeated j => if j = i then some .repeated else none
  | .sequenceCompleted j => if j = i then some .finished else none
  | _ => none

theorem sign_apart {groups : List ConcurrentGroup} {i : Nat} {m : Mark} (h : m.Apart) : m.sign groups i = none := by
  cases m <;> first | rfl | cases h

theorem sign_congr {groups groups' : List ConcurrentGroup}
    (h : groups'.map ConcurrentGroup.range = groups.map ConcurrentGroup.range) (i : Nat) :
    Mark.sign groups' i = Mark.sign groups i := by
  funext m
  cases m with
  | callbackQueued data =>
    cases data with
    | execution g entryData =>
      cases entryData with
      | none => rfl
      | some d =>
        have hget := congrArg (fun l => l[g]?) h
        simp only [List.getElem?_map] at hget
        rw [Mark.sign, Mark.sign]
        cases ha : groups[g]? with
        | none =>
          rw [ha, Option.map_none, Option.map_eq_none_iff] at hget
          rw [hget]
        | some a =>
          rw [ha, Option.map_some, Option.map_eq_some_iff] at hget
          obtain ⟨a', ha', hrange⟩ := hget
          rw [ha']
          dsimp only
          rw [d.place_congr hrange]
    | _ => rfl
  | _ => rfl

/-- The marks of an event are its sign, but a callback has a token instead. -/
theorem sign_marks (groups : List ConcurrentGroup) (i n : Nat) {e : Event} (h : ∀ entry, e ≠ .called entry) :
    (e.marks i n).filterMap (Mark.sign groups i) = e.sign.toList := by
  cases e with
  | called entry => cases h entry rfl
  | _ => simp [Event.marks, Event.sign, Mark.sign]

theorem sign_marks_other (groups : List ConcurrentGroup) {i j : Nat} (hij : j ≠ i) (n : Nat) (e : Event) :
    (e.marks j n).filterMap (Mark.sign groups i) = [] := by
  cases e <;> simp [Event.marks, Mark.sign, hij]

/-- What happened to the `i`-th sequence on the way from `b` to `b'`. -/
structure Projected (i : Nat) (b b' : BunTest) (s s' : ExecutionSequence) (es : List Event) : Prop where
  sequence : b'.execution.sequences[i]? = some s'
  trail : Trail ExecutionSequence.Step s es s'
  log : ∃ marks, b'.log = b.log ++ marks ∧
    marks.filterMap (Mark.sign b.execution.groups i) = es.filterMap Event.sign
  ranges : b'.execution.groups.map ConcurrentGroup.range = b.execution.groups.map ConcurrentGroup.range
  nextEntry : b.nextEntry ≤ b'.nextEntry
  made : ∀ id ∈ es.filterMap Event.made, b.nextEntry ≤ id ∧ id < b'.nextEntry
  increasing : (es.filterMap Event.made).Pairwise (· < ·)

section Projected
variable {i : Nat} {b b' b'' : BunTest} {s s' s'' : ExecutionSequence} {es fs : List Event}

theorem Projected.trans (h : Projected i b b' s s' es) (h' : Projected i b' b'' s' s'' fs) :
    Projected i b b'' s s'' (es ++ fs) where
  sequence := h'.sequence
  trail := h.trail.append h'.trail
  log := by
    obtain ⟨marks, hlog, hsigns⟩ := h.log
    obtain ⟨marks', hlog', hsigns'⟩ := h'.log
    refine ⟨marks ++ marks', by rw [hlog', hlog, List.append_assoc], ?_⟩
    rw [sign_congr h.ranges] at hsigns'
    rw [List.filterMap_append, List.filterMap_append, hsigns, hsigns']
  ranges := h'.ranges.trans h.ranges
  nextEntry := h.nextEntry.trans h'.nextEntry
  made id hid := by
    rw [List.filterMap_append, List.mem_append] at hid
    rcases hid with hid | hid
    · exact ⟨(h.made id hid).1, (h.made id hid).2.trans_le h'.nextEntry⟩
    · exact ⟨h.nextEntry.trans (h'.made id hid).1, (h'.made id hid).2⟩
  increasing := by
    rw [List.filterMap_append]
    exact List.pairwise_append.2
      ⟨h.increasing, h'.increasing, fun id hid id' hid' => (h.made id hid).2.trans_le (h'.made id' hid').1⟩

/-- Nothing happened to it. -/
theorem projected_nil (hs : b.execution.sequences[i]? = some s)
    (hsequence : b'.execution.sequences[i]? = b.execution.sequences[i]?) {marks : List Mark}
    (hlog : b'.log = b.log ++ marks) (hmarks : marks.filterMap (Mark.sign b.execution.groups i) = [])
    (hranges : b'.execution.groups.map ConcurrentGroup.range = b.execution.groups.map ConcurrentGroup.range)
    (hnext : b.nextEntry ≤ b'.nextEntry) : Projected i b b' s s [] where
  sequence := hsequence.trans hs
  trail := .nil
  log := ⟨marks, hlog, hmarks⟩
  ranges := hranges
  nextEntry := hnext
  made := by simp
  increasing := List.Pairwise.nil

/-- A step of it -/
theorem projected_step {e : Event} (hsequence : b'.execution.sequences[i]? = some s') (hstep : s.Step e s')
    {marks : List Mark} (hlog : b'.log = b.log ++ marks)
    (hmarks : marks.filterMap (Mark.sign b.execution.groups i) = e.sign.toList)
    (hranges : b'.execution.groups.map ConcurrentGroup.range = b.execution.groups.map ConcurrentGroup.range)
    (hnext : b.nextEntry ≤ b'.nextEntry) (hmade : ∀ id, e.made = some id → b.nextEntry ≤ id ∧ id < b'.nextEntry) :
    Projected i b b' s s' [e] where
  sequence := hsequence
  trail := .single hstep
  log := by
    refine ⟨marks, hlog, ?_⟩
    rw [hmarks]
    cases hsign : e.sign <;> simp [hsign]
  ranges := hranges
  nextEntry := hnext
  made id hid := by
    apply hmade
    simpa using hid
  increasing := by
    cases hmade' : e.made <;> simp [hmade']

theorem getElem?_setSequence_of_ne {j : Nat} (hij : j ≠ i) (x : ExecutionSequence) :
    (b.setSequence j x).execution.sequences[i]? = b.execution.sequences[i]? :=
  List.getElem?_set_ne hij

theorem projected_of_happening (h : Happening b b') (hs : b.execution.sequences[i]? = some s) :
    ∃ es s', Projected i b b' s s' es := by
  cases h with
  | other execution log nextEntry =>
    exact ⟨[], s, projected_nil hs (by rw [execution]) (log.trans (List.append_nil _).symm) rfl (by rw [execution]) nextEntry⟩
  | @emit m apart =>
    exact ⟨[], s, projected_nil hs rfl rfl (by simp [sign_apart apart]) rfl (Nat.le_refl _)⟩
  | accept data =>
    refine ⟨[], s, ?_⟩
    rw [BunTest.accept]
    split
    · exact projected_nil hs rfl (List.append_nil _).symm rfl rfl (Nat.le_refl _)
    · exact projected_nil hs rfl rfl rfl rfl (Nat.le_refl _)
  | @token a index t entry group sequence active executing =>
    have hget : b.execution.groups[b.execution.groupIndex]? = some a := group
    by_cases hi : a.sequenceStart + index = i
    · subst hi
      cases hs.symm.trans sequence
      refine ⟨[.called entry.id], s, projected_step hs (.called active executing) rfl ?_ rfl (Nat.le_refl _) (fun _ hid => by cases hid)⟩
      simp [Mark.sign, hget, EntryData.place, Event.sign]
    · refine ⟨[], s, projected_nil hs rfl rfl ?_ rfl (Nat.le_refl _)⟩
      simp [Mark.sign, hget, EntryData.place, hi]
  | @step _ j n t t' e sequence step unmade uncalled execution log nextEntry =>
    have hranges : b'.execution.groups.map ConcurrentGroup.range = b.execution.groups.map ConcurrentGroup.range := by
      rw [execution]
      rfl
    by_cases hij : j = i
    · subst hij
      cases hs.symm.trans sequence
      have hsequence : b'.execution.sequences[j]? = some t' := by
        rw [execution]
        exact BunTest.getElem?_setSequence hs t'
      refine ⟨[e], t', projected_step hsequence step log (sign_marks _ j n uncalled) hranges nextEntry.ge ?_⟩
      intro id hid
      rw [unmade] at hid
      cases hid
    · have hsequence : b'.execution.sequences[i]? = b.execution.sequences[i]? := by
        rw [execution]
        exact getElem?_setSequence_of_ne hij t'
      exact ⟨[], s, projected_nil hs hsequence log (sign_marks_other _ hij n e) hranges nextEntry.ge⟩
  | @hook j t sequence active tag hasDoneParameter timeout =>
    by_cases hij : j = i
    · subst hij
      cases hs.symm.trans sequence
      obtain ⟨entry, hactive⟩ := Option.isSome_iff_exists.1 active
      have hsequence := BunTest.getElem?_setSequence hs (s.addHook tag (b.createHook hasDoneParameter timeout))
      have hadded : (b.createHook hasDoneParameter timeout).addedInPhase = .execution := rfl
      have hstep := ExecutionSequence.Step.registered hactive tag hadded rfl
      refine ⟨_, _, projected_step hsequence hstep (List.append_nil _).symm rfl rfl (Nat.le_succ _) ?_⟩
      intro id hid
      cases hid
      exact ⟨Nat.le_refl _, Nat.lt_succ_self _⟩
    · exact ⟨[], s, projected_nil hs (getElem?_setSequence_of_ne hij _) (List.append_nil _).symm rfl rfl (Nat.le_succ _)⟩
  | group g range =>
    exact ⟨[], s, projected_nil hs rfl (List.append_nil _).symm rfl (b.ranges_modifyGroup g range) (Nat.le_refl _)⟩
  | leave group ahead => exact ⟨[], s, projected_nil hs rfl (List.append_nil _).symm rfl rfl (Nat.le_refl _)⟩

theorem projected_of_happenings (h : Relation.ReflTransGen Happening b b') (hs : b.execution.sequences[i]? = some s) :
    ∃ es s', Projected i b b' s s' es := by
  induction h with
  | refl => exact ⟨[], s, projected_nil hs rfl (List.append_nil _).symm rfl rfl (Nat.le_refl _)⟩
  | tail _ happening ih =>
    obtain ⟨es, s', hprojected⟩ := ih
    obtain ⟨fs, s'', hlast⟩ := projected_of_happening happening hprojected.sequence
    exact ⟨es ++ fs, s'', hprojected.trans hlast⟩

end Projected

/-! ### Tests and the hooks around them -/

/-- How the attempts of a test went, with the events of its sequence. -/
structure InOrder (parents : List EachHooks) (test : ExecutionEntry) (es : List Event) : Prop where
  /-- What was started is as the plan has it, -/
  started : ∀ attempt ∈ (rounds Event.again es).all, (testLayout parents test).Timely attempt →
    starts attempt <+: (testLayout parents test).plan attempt
  /-- and it is all of the plan when the attempt has ended. -/
  ended : ∀ attempt ∈ (rounds Event.again es).all, (testLayout parents test).Timely attempt →
    attempt ∈ (rounds Event.again es).ended ∨ .finished ∈ attempt → starts attempt = (testLayout parents test).plan attempt
  /-- What is registered in an attempt is never started in a later one. -/
  registered : (rounds Event.again es).all.Pairwise fun attempt later =>
    ∀ id ∈ attempt.filterMap Event.made, id ∉ starts later
  /-- An attempt starts again from the first entry, with all deadlines cleared. -/
  restarted : ∀ es' e s, es' ++ [e] <+: es → e.again = true →
    Trail ExecutionSequence.Step (testSequence parents test) (es' ++ [e]) s →
      s.passed = [] ∧ s.remaining = (testEntries parents test).map ExecutionEntry.cleared ∧ s.executing = false
  count : (rounds Event.again es).all.length ≤ 1 + test.retryCount + test.repeatCount

/-- What was started of the `i`-th sequence, a test, when `run` has returned. -/
structure Progressed (parents : List EachHooks) (test : ExecutionEntry) (i : Nat) (b : BunTest) (es : List Event) : Prop where
  /-- Every attempt has all of its plan behind it, where the group was left without being skipped. -/
  left : ∀ j g, b.execution.groups[j]? = some g → g.Has i → j < b.execution.groupIndex → ¬ b.Skipped j →
    ∀ attempt ∈ (rounds Event.again es).all, (testLayout parents test).Timely attempt →
      starts attempt = (testLayout parents test).plan attempt
  /-- Where the group goes on and has come to the sequence, so has the last attempt, or it is as far as the entry that is
  awaited. -/
  active : b.phase = .execution → ∀ g, b.execution.activeGroup = some g → g.Has i →
    i < g.sequenceStart + g.nextSequenceIndex → (testLayout parents test).Timely (rounds Event.again es).current →
    starts (rounds Event.again es).current = (testLayout parents test).plan (rounds Event.again es).current ∨
      ∃ s entry front, b.execution.sequences[i]? = some s ∧ s.executing = true ∧ s.activeEntry = some entry ∧
        starts (rounds Event.again es).current = front ++ [entry.id]

section InOrder
variable {parents : List EachHooks} {test : ExecutionEntry} {es : List Event} {s : ExecutionSequence}

theorem InAttempt.starts_awaited {l : Layout} {attempt : List Event} (h : InAttempt l attempt s) {entry : ExecutionEntry}
    (hexecuting : s.executing = true) (hentry : s.activeEntry = some entry) : ∃ front, starts attempt = front ++ [entry.id] := by
  obtain ⟨front, -, hstarts⟩ := h.stage
  refine ⟨front, ?_⟩
  rw [hstarts, ExecutionSequence.runningIds, if_pos hexecuting, hentry]
  rfl

theorem Follows.progressed (h : Follows parents test es s) {o : BunTest.Loaded} {b : BunTest} {i : Nat}
    (hresting : BunTest.Resting o b) (hs : b.execution.sequences[i]? = some s) : Progressed parents test i b es := by
  obtain ⟨⟨k, hk⟩, -⟩ := hresting.toAccounted
  have hcomplete : s.incomplete = false → (testLayout parents test).Timely (rounds Event.again es).current →
      starts (rounds Event.again es).current = (testLayout parents test).plan (rounds Event.again es).current := by
    intro hincomplete htimely
    apply (h.current htimely).starts_eq
    by_contra hne
    rw [ExecutionSequence.incomplete_iff.2 hne] at hincomplete
    cases hincomplete
  constructor
  · intro j g hg hi hj hskipped attempt hattempt htimely
    rcases List.mem_append.1 hattempt with hmem | hmem
    · exact h.ended attempt hmem htimely
    · cases List.mem_singleton.1 hmem
      have hbehind := (hk.inv.sequences j g hg i s hi hs nofun).behind hj
      exact hcomplete (hbehind.2.2 ((hk.inv.marks.passed j hj).resolve_right hskipped)) htimely
  · intro hphase g hg hi hnext htimely
    have hstarted := (hk.inv.sequences _ g hg i s hi hs nofun).started rfl (by
      have hle := (hk.inv.next g hg).1
      have hstart := hi.1
      omega)
    rcases hstarted with hexecuting | hincomplete
    · obtain ⟨entry, hentry⟩ := Option.isSome_iff_exists.1 ((hk.inv.sequences _ g hg i s hi hs nofun).executing hexecuting)
      obtain ⟨front, hstarts⟩ := (h.current htimely).starts_awaited hexecuting hentry
      exact .inr ⟨s, entry, front, hs, hexecuting, hentry, hstarts⟩
    · exact .inl (hcomplete hincomplete htimely)

theorem follows_testSequence (hcallback : test.base.hasCallback = true)
    (hcollected : ∀ entry ∈ testEntries parents test, entry.addedInPhase ≠ .execution)
    (hdistinct : ((testEntries parents test).map ExecutionEntry.id).Nodup) :
    Follows parents test [] (testSequence parents test) := by
  have hcleared : (testSequence parents test).cleared = (testEntries parents test).map ExecutionEntry.cleared := rfl
  have hall : ∀ entry ∈ (testEntries parents test).map ExecutionEntry.cleared, entry.collected = true := by
    intro entry hentry
    obtain ⟨entry, hmem, rfl⟩ := List.mem_map.1 hentry
    exact decide_eq_true (hcollected entry hmem)
  refine ⟨⟨rfl, rfl, rfl, ?_, ?_, ?_, ?_, ?_⟩, ?_, ?_⟩
  · obtain ⟨first, rest, hentries⟩ := List.exists_cons_of_ne_nil (testEntries_ne_nil parents test)
    rw [hentries] at hall
    rw [hcleared, hentries]
    exact ⟨first.cleared, _, rfl, hall _ List.mem_cons_self⟩
  · rw [hcleared]
    exact List.filter_eq_self.2 hall
  · rw [hcleared, map_id_cleared]
    exact fun id hid => .inl hid
  · rw [hcleared, map_id_cleared]
    exact hdistinct
  · simp [rounds, Rounds.all, starts]
  · intro _
    apply InAttempt.begin rfl _ rfl rfl rfl
    have hkeys := testEntries_keys parents hcallback
    rw [List.map_map] at hkeys
    exact hkeys
  · simp [rounds]

theorem follows_of_trail (hcallback : test.base.hasCallback = true)
    (hcollected : ∀ entry ∈ testEntries parents test, entry.addedInPhase ≠ .execution)
    (hdistinct : ((testEntries parents test).map ExecutionEntry.id).Nodup)
    (htrail : Trail ExecutionSequence.Step (testSequence parents test) es s)
    (hfresh : Fresh (testEntries parents test) es) : Follows parents test es s := by
  apply htrail.keeps (P := fun es s => Fresh (testEntries parents test) es → Follows parents test es s) _ _ hfresh
  · exact fun _ => follows_testSequence hcallback hcollected hdistinct
  · exact fun es t e u ih hstep hfresh => (ih hfresh.of_append).step hcallback hstep hfresh

theorem countP_again (es : List Event) : es.countP Event.again = es.count .retried + es.count .repeated := by
  induction es with
  | nil => rfl
  | cons e es ih =>
    rw [List.countP_cons, List.count_cons, List.count_cons, ih]
    cases e <;> simp [Event.again] <;> omega

theorem Follows.inOrder (h : Follows parents test es s) (hcallback : test.base.hasCallback = true)
    (hcollected : ∀ entry ∈ testEntries parents test, entry.addedInPhase ≠ .execution)
    (hdistinct : ((testEntries parents test).map ExecutionEntry.id).Nodup)
    (hfresh : Fresh (testEntries parents test) es) : InOrder parents test es where
  started attempt hattempt htimely := by
    rcases List.mem_append.1 hattempt with hmem | hmem
    · exact (h.ended attempt hmem htimely) ▸ List.prefix_refl _
    · cases List.mem_singleton.1 hmem
      exact (h.current htimely).starts_within
  ended attempt hattempt htimely hended := by
    rcases List.mem_append.1 hattempt with hmem | hmem
    · exact h.ended attempt hmem htimely
    · cases List.mem_singleton.1 hmem
      rcases hended with hfinal | hfinal
      · exact h.ended _ hfinal htimely
      · exact (h.current htimely).starts_eq ((h.current htimely).finished hfinal)
  registered := by
    have hnone : ∀ e : Event, e.again = true → e.made = none := by
      intro e he
      cases e <;> first | rfl | cases he
    have hmade := flatMap_rounds Event.made hnone es
    have hnodup := hfresh.distinct
    have hunknown := hfresh.unknown
    rw [← hmade] at hnodup hunknown
    apply (List.nodup_flatMap.1 hnodup).2.imp_of_mem
    intro attempt later hattempt hlater hdisjoint id hid hstarted
    rcases h.starts later hlater id hstarted with hfile | hagain
    · exact hunknown id (List.mem_flatMap.2 ⟨attempt, hattempt, hid⟩) hfile
    · exact hdisjoint hid hagain
  restarted es' e s' hprefix hagain htrail := by
    obtain ⟨rest, hrest⟩ := hprefix
    rw [← hrest, List.append_assoc] at hfresh
    obtain ⟨t, hbefore, hstep⟩ := htrail.last
    have hfollows := follows_of_trail hcallback hcollected hdistinct hbefore hfresh.of_append
    cases hstep with
    | retried complete failed left now =>
      have hentries : (t.addFlakyAttempt now).entries = t.entries := by
        rw [ExecutionSequence.addFlakyAttempt]
        split <;> rfl
      exact ⟨rfl, hfollows.reset_remaining
        {t.addFlakyAttempt now with remainingRetryCount := t.remainingRetryCount - 1} hentries, rfl⟩
    | repeated complete passed left =>
      exact ⟨rfl, hfollows.reset_remaining
        {t with remainingRepeatCount := t.remainingRepeatCount - 1} rfl, rfl⟩
    | _ => cases hagain
  count := by
    have hretries := h.retries
    have hrepeats := h.repeats
    rw [Rounds.all, List.length_append, length_ended, countP_again, List.length_singleton]
    omega

end InOrder

/-- The events of the `i`-th sequence in a run: they make it what it is, the log shows them, and the hooks that are
registered are new. -/
structure Happened (o : Order) (i : Nat) (b : BunTest) (es : List Event) : Prop where
  trail : ∃ s₀ s, o.sequences[i]? = some s₀ ∧ b.execution.sequences[i]? = some s ∧ Trail ExecutionSequence.Step s₀ es s
  log : b.log.filterMap (Mark.sign o.groups i) = es.filterMap Event.sign
  fresh : ∀ s₀, o.sequences[i]? = some s₀ → Fresh s₀.entries es

namespace BunTest

theorem happened_of_runs (c : Collection) {w : World} {fuel maxConcurrency : Nat} {actions : List Action} {b : BunTest}
    (h : runs w fuel c.generateOrder.2 maxConcurrency actions = some b) {i : Nat} {s₀ : ExecutionSequence}
    (hs₀ : c.generateOrder.2.sequences[i]? = some s₀) : ∃ es, Happened c.generateOrder.2 i b es := by
  obtain ⟨es, s, hprojected⟩ := projected_of_happenings (happenings_runs c h) hs₀
  refine ⟨es, ⟨s₀, s, hs₀, hprojected.sequence, hprojected.trail⟩, ?_, ?_⟩
  · obtain ⟨marks, hlog, hsigns⟩ := hprojected.log
    rw [hlog]
    exact hsigns
  · intro s₁ hs₁
    cases hs₀.symm.trans hs₁
    refine ⟨hprojected.increasing.imp fun hlt => Nat.ne_of_lt hlt, ?_⟩
    intro id hid hmem
    obtain ⟨entry, hentry, rfl⟩ := List.mem_map.1 hmem
    have hlt : entry.id < (load c.generateOrder.2 maxConcurrency).nextEntry :=
      id_lt_nextEntry (List.mem_of_getElem? hs₀) hentry
    exact Nat.lt_irrefl _ (hlt.trans_le (hprojected.made _ hid).1)

/-- **Hooks run in order around each attempt**: in every run something happened to the sequence of a test, and whatever
it was, it was in order, and has come as far as it can. -/
theorem runs_hooks (f : File) {w : World} {fuel maxConcurrency : Nat} {actions : List Action} {b : BunTest}
    (h : runs w fuel f.generateOrder.2 maxConcurrency actions = some b) {i : Nat} {s₀ : ExecutionSequence}
    (hs₀ : f.generateOrder.2.sequences[i]? = some s₀) {test : ExecutionEntry} (htest : s₀.testEntry = some test)
    (hcallback : test.base.hasCallback = true) (hcollected : ∀ entry ∈ s₀.entries, entry.addedInPhase ≠ .execution) :
    ∃ parents, Within [f.hookScope.eachHooks] f.rootScope parents test ∧ s₀ = testSequence parents test ∧
      (∃ es, Happened f.generateOrder.2 i b es) ∧
      ∀ es, Happened f.generateOrder.2 i b es → InOrder parents test es ∧ Progressed parents test i b es := by
  rcases Collection.mem_sequences (List.mem_of_getElem? hs₀) with ⟨hook, rfl⟩ | ⟨parents, test', hwithin, rfl⟩
  · cases htest
  · cases htest
    refine ⟨parents, hwithin, rfl, happened_of_runs f.toCollection h hs₀, ?_⟩
    intro es hhappened
    obtain ⟨s₁, s, hs₁, hs, htrail⟩ := hhappened.trail
    cases hs₀.symm.trans hs₁
    have hfresh := hhappened.fresh _ hs₀
    have hids : (eachIds parents ++ [test.id]).Nodup := by
      have heach : (eachIds [f.hookScope.eachHooks]).Sublist f.hookScope.ids := by
        rw [eachIds, List.flatMap_singleton, f.hookScope.ids_eq]
        exact f.hookScope.eachHooks_sublist.trans (List.sublist_append_left _ _)
      exact hwithin.nodup (f.distinct.sublist (heach.append_right _))
    have hdistinct : ((testEntries parents test).map ExecutionEntry.id).Nodup := by
      have hall := testEntries_ids hids
      rw [testEntries, if_pos hcallback]
      simpa [Function.comp_def] using hall
    have hfollows := follows_of_trail hcallback hcollected hdistinct htrail hfresh
    exact ⟨hfollows.inOrder hcallback hcollected hdistinct hfresh, hfollows.progressed (runs_resting f.toCollection h) hs⟩

/-! A test between two hooks. In the first attempt the hook before it registers two more, and the test throws; the second
attempt has none of them. -/

def hookedEntry (id retryCount : Nat) : ExecutionEntry :=
  ⟨id, ⟨false, .normal, .no, true⟩, true, 5, false, 0, .collection, retryCount, 0, none⟩

def hookedFile : File where
  rootScope := ⟨⟨false, .normal, .no, true⟩, [.testCallback (hookedEntry 1 1)], [], [hookedEntry 2 0], [hookedEntry 3 0], [], false⟩
  hookScope := ⟨⟨false, .normal, .no, false⟩, [], [], [], [], [], false⟩
  first := true
  last := true
  hasFilter := false
  randomize := none
  distinct := by decide

def hookedWorld : World where
  now tick := tick + 1
  callback call :=
    match call with
    | 0 => ⟨[.addHook .afterEach false 5, .addHook .onTestFinished false 5], true⟩
    | 1 => ⟨[.uncaughtException .current], true⟩
    | _ => ⟨[], true⟩

theorem runs_hooks_hooked : ∃ parents, Within [hookedFile.hookScope.eachHooks] hookedFile.rootScope parents (hookedEntry 1 1) ∧
    testSequence [⟨[hookedEntry 2 0], [hookedEntry 3 0]⟩, ⟨[], []⟩] (hookedEntry 1 1) = testSequence parents (hookedEntry 1 1) ∧
      (∃ es, Happened hookedFile.generateOrder.2 0
        ((runs hookedWorld 20 hookedFile.generateOrder.2 20 []).get (by decide)) es) ∧
      ∀ es, Happened hookedFile.generateOrder.2 0
        ((runs hookedWorld 20 hookedFile.generateOrder.2 20 []).get (by decide)) es →
          InOrder parents (hookedEntry 1 1) es ∧ Progressed parents (hookedEntry 1 1) 0
            ((runs hookedWorld 20 hookedFile.generateOrder.2 20 []).get (by decide)) es :=
  runs_hooks hookedFile (Option.some_get _).symm rfl rfl rfl (by decide)

end BunTest

end Funbun.TestRunner
