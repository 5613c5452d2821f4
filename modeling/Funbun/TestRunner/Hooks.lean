import Funbun.Library.Cut
import Funbun.Library.Trails
import Funbun.TestRunner.Attempts

/-! The order of the hooks in an attempt.

What starts in an attempt is told by what fails in it and by the hooks that are registered in it (`Layout.plan`). At every
moment what was started is a part of the plan, up to the active entry (`InAttempt`). -/
namespace Funbun.TestRunner
open Library

/-! ### Attempts -/

namespace Event

/-- The next attempt begins. -/
def again : Event → Bool
  | .retried | .repeated => true
  | _ => false

def startedEntry : Event → Option Nat
  | .started entry => some entry
  | _ => none

/-- A hook that is registered to run behind the test -/
def afterHook : Event → Option Nat
  | .registered .onTestFinished _ _ => none
  | .registered _ entry _ => some entry
  | _ => none

def finishedHook : Event → Option Nat
  | .registered .onTestFinished entry _ => some entry
  | _ => none

end Event

/-- The entries that are started in an attempt, in order. -/
def starts (attempt : List Event) : List Nat := attempt.filterMap Event.startedEntry

/-- The entry throws, or it is not done in time. -/
def fails (attempt : List Event) (entry : Nat) : Bool := decide (.failed entry ∈ attempt)

def afterHooks (attempt : List Event) : List Nat := attempt.filterMap Event.afterHook

def finishedHooks (attempt : List Event) : List Nat := attempt.filterMap Event.finishedHook

/-- A test with the hooks around it, by their ids. -/
structure Layout where
  before : List Nat
  test : Nat
  after : List Nat

namespace Layout

/-- The hooks that come behind the test in an attempt: of those that are registered in it the last comes first,
then the hooks of the scopes, and then what is to run when the test is finished. -/
def behind (l : Layout) (attempt : List Event) : List Nat :=
  (afterHooks attempt).reverse ++ l.after ++ finishedHooks attempt

/-- Up to the end of the test -/
def head (l : Layout) (attempt : List Event) : List Nat :=
  upTo (fails attempt) l.before ++ if l.before.any (fails attempt) then [] else [l.test]

/-- What is to start in an attempt. -/
def plan (l : Layout) (attempt : List Event) : List Nat :=
  l.head attempt ++ upTo (fails attempt) (l.behind attempt)

/-- What is registered to run behind the test is registered by then: while a hook before it or the test itself runs. -/
def Timely (l : Layout) (attempt : List Event) : Prop :=
  ∀ tag entry active, .registered tag entry active ∈ attempt → tag ≠ .onTestFinished → active ∈ l.before ++ [l.test]

/-- The entries of the sequence: those up to the test skip past it when they fail, the others skip all. -/
def keys (l : Layout) (attempt : List Event) : List (Nat × Option Nat) :=
  (l.before ++ [l.test]).map (fun id => (id, some l.test)) ++ (l.behind attempt).map fun id => (id, none)

theorem Timely.of_append {l : Layout} {attempt : List Event} {e : Event} (h : l.Timely (attempt ++ [e])) : l.Timely attempt :=
  fun tag entry active hmem => h tag entry active (List.mem_append_left _ hmem)

theorem keys_ids (l : Layout) (attempt : List Event) :
    (l.keys attempt).map Prod.fst = l.before ++ [l.test] ++ l.behind attempt := by
  rw [keys, List.map_append, List.map_map, List.map_map]
  simp [Function.comp_def]

end Layout

/-! ### The place in an attempt -/

def ExecutionSequence.passedIds (s : ExecutionSequence) : List Nat := s.passed.map ExecutionEntry.id

/-- How far an attempt has come, with the entries that are done: up to the test none failed among those that are behind,
or the test is behind, or a hook behind it failed and the attempt is complete. -/
inductive Stage (l : Layout) (attempt : List Event) (s : ExecutionSequence) : List Nat → Prop
  | ahead {rest : List Nat} (split : l.before ++ [l.test] = s.passedIds ++ rest) (left : rest ≠ [])
    (clean : ∀ id ∈ s.passedIds, fails attempt id = false) : Stage l attempt s s.passedIds
  | past {front : List Nat} (split : s.passedIds = l.before ++ [l.test] ++ front)
    (clean : ∀ id ∈ front, fails attempt id = false) : Stage l attempt s (l.head attempt ++ front)
  | cut (complete : s.remaining = []) : Stage l attempt s (l.plan attempt)

/-- The entry that runs -/
def ExecutionSequence.runningIds (s : ExecutionSequence) : List Nat :=
  if s.executing then (s.activeEntry.map ExecutionEntry.id).toList else []

/-- A sequence in an attempt, with what happened in it. -/
structure InAttempt (l : Layout) (attempt : List Event) (s : ExecutionSequence) : Prop where
  keys : s.keys = l.keys attempt
  testEntry : s.testEntry.map ExecutionEntry.id = some l.test
  failed : ∀ id, fails attempt id = true → id ∈ s.passedIds ∨ s.activeEntry.map ExecutionEntry.id = some id
  maybeSkip : ∀ entry, s.activeEntry = some entry → s.maybeSkip = fails attempt entry.id
  stage : ∃ done, Stage l attempt s done ∧ starts attempt = done ++ s.runningIds
  finished : .finished ∈ attempt → s.remaining = []

/-! ### What an event adds -/

section Append
variable (attempt : List Event) (e : Event)

theorem starts_append : starts (attempt ++ [e]) = starts attempt ++ e.startedEntry.toList := by
  cases h : e.startedEntry <;> simp [starts, List.filterMap_append, h]

theorem afterHooks_append : afterHooks (attempt ++ [e]) = afterHooks attempt ++ e.afterHook.toList := by
  cases h : e.afterHook <;> simp [afterHooks, List.filterMap_append, h]

theorem finishedHooks_append : finishedHooks (attempt ++ [e]) = finishedHooks attempt ++ e.finishedHook.toList := by
  cases h : e.finishedHook <;> simp [finishedHooks, List.filterMap_append, h]

theorem fails_append (id : Nat) : fails (attempt ++ [e]) id = (fails attempt id || decide (e = .failed id)) := by
  simp [fails, eq_comm]

theorem fails_of_not_failed (h : ∀ id, e ≠ .failed id) : fails (attempt ++ [e]) = fails attempt := by
  funext id
  simp [fails_append, h id]

theorem behind_append (l : Layout) (hafter : e.afterHook = none) (hfinished : e.finishedHook = none) :
    l.behind (attempt ++ [e]) = l.behind attempt := by
  simp [Layout.behind, afterHooks_append, finishedHooks_append, hafter, hfinished]

theorem plan_append (l : Layout) (hfailed : ∀ id, e ≠ .failed id) (hafter : e.afterHook = none)
    (hfinished : e.finishedHook = none) : l.plan (attempt ++ [e]) = l.plan attempt := by
  rw [Layout.plan, Layout.head, fails_of_not_failed attempt e hfailed, behind_append attempt e l hafter hfinished]
  rfl

end Append

/-! ### The stages -/

section Stages
variable {l : Layout} {attempt attempt' : List Event} {s s' : ExecutionSequence} {done : List Nat}

theorem Layout.head_congr (l : Layout) (h : ∀ id ∈ l.before, fails attempt' id = fails attempt id) :
    l.head attempt' = l.head attempt := by
  have hany : l.before.any (fails attempt') = l.before.any (fails attempt) := by
    rw [Bool.eq_iff_iff, List.any_eq_true, List.any_eq_true]
    constructor
    · intro ⟨id, hid, hfails⟩
      exact ⟨id, hid, h id hid ▸ hfails⟩
    · intro ⟨id, hid, hfails⟩
      exact ⟨id, hid, (h id hid).trans hfails⟩
  rw [Layout.head, upTo_congr h, hany, Layout.head]

/-- The stage is what it was as long as the same entries are behind. -/
theorem Stage.congr (h : Stage l attempt s done) (hpassed : s'.passedIds = s.passedIds)
    (hcomplete : s.remaining = [] → s'.remaining = [] ∧ l.plan attempt' = l.plan attempt)
    (hfails : ∀ id ∈ s.passedIds, fails attempt' id = fails attempt id) : Stage l attempt' s' done := by
  cases h with
  | @ahead rest split left clean =>
    rw [← hpassed] at split clean hfails ⊢
    exact .ahead split left fun id hid => (hfails id hid).trans (clean id hid)
  | @past front split clean =>
    rw [split] at hfails
    have hhead : l.head attempt' = l.head attempt :=
      l.head_congr fun id hid => hfails id (List.mem_append_left _ (List.mem_append_left _ hid))
    rw [← hhead]
    exact .past (hpassed.trans split) fun id hid => (hfails id (List.mem_append_right _ hid)).trans (clean id hid)
  | cut complete =>
    obtain ⟨hremaining, hplan⟩ := hcomplete complete
    rw [← hplan]
    exact .cut hremaining

theorem ExecutionSequence.keys_ids (s : ExecutionSequence) :
    s.keys.map Prod.fst = s.passedIds ++ s.remaining.map ExecutionEntry.id := by
  rw [ExecutionSequence.keys, List.map_map, ExecutionSequence.entries, List.map_append]
  rfl

theorem InAttempt.ids (h : InAttempt l attempt s) :
    s.passedIds ++ s.remaining.map ExecutionEntry.id = l.before ++ [l.test] ++ l.behind attempt := by
  rw [← s.keys_ids, h.keys, l.keys_ids]

/-- What is left while the test is ahead. -/
theorem InAttempt.remaining_ahead (h : InAttempt l attempt s) {rest : List Nat}
    (hsplit : l.before ++ [l.test] = s.passedIds ++ rest) :
    s.remaining.map ExecutionEntry.key =
      rest.map (fun id => (id, some l.test)) ++ (l.behind attempt).map fun id => (id, none) := by
  have hkeys := h.keys
  rw [ExecutionSequence.keys, ExecutionSequence.entries, List.map_append, Layout.keys, hsplit, List.map_append,
    List.append_assoc] at hkeys
  apply (List.append_inj hkeys _).2
  simp [ExecutionSequence.passedIds]

/-- What is left when the test is behind. -/
theorem InAttempt.remaining_past (h : InAttempt l attempt s) {front : List Nat}
    (hsplit : s.passedIds = l.before ++ [l.test] ++ front) : ∃ rest, l.behind attempt = front ++ rest ∧
      s.remaining.map ExecutionEntry.key = rest.map fun id => (id, none) := by
  have hids := h.ids
  rw [hsplit, List.append_assoc _ front] at hids
  have hbehind := List.append_cancel_left hids
  refine ⟨s.remaining.map ExecutionEntry.id, hbehind.symm, ?_⟩
  have hkeys := h.keys
  have hmap : ∀ xs ys : List Nat, (xs ++ ys).map (fun id => ((id, none) : Nat × Option Nat)) =
      xs.map (fun id => (id, none)) ++ ys.map fun id => (id, none) := fun _ _ => List.map_append
  rw [ExecutionSequence.keys, ExecutionSequence.entries, List.map_append, Layout.keys, ← hbehind, hmap,
    ← List.append_assoc] at hkeys
  apply (List.append_inj hkeys _).2
  have hlength := congrArg List.length hsplit
  simpa [ExecutionSequence.passedIds] using hlength

/-- When nothing is left, what was started is the plan. -/
theorem InAttempt.starts_eq (h : InAttempt l attempt s) (hcomplete : s.remaining = []) : starts attempt = l.plan attempt := by
  obtain ⟨done, hstage, hstarts⟩ := h.stage
  have hrunning : s.runningIds = [] := by
    simp [ExecutionSequence.runningIds, ExecutionSequence.activeEntry, hcomplete]
  rw [hstarts, hrunning, List.append_nil]
  cases hstage with
  | @ahead rest split left clean =>
    have hremaining := congrArg List.length (h.remaining_ahead split)
    have hpos := List.length_pos_iff.2 left
    simp only [hcomplete, List.length_append, List.length_map, List.length_nil] at hremaining
    omega
  | @past front split clean =>
    obtain ⟨rest, hbehind, hremaining⟩ := h.remaining_past split
    rw [hcomplete, List.map_nil, eq_comm, List.map_eq_nil_iff] at hremaining
    rw [hremaining, List.append_nil] at hbehind
    rw [Layout.plan, hbehind, upTo_of_forall clean]
  | cut complete => rfl

/-- While something is left, the plan goes on with the active entry. -/
theorem Stage.prefix_plan (h : InAttempt l attempt s) (hstage : Stage l attempt s done) {entry : ExecutionEntry}
    {rest : List ExecutionEntry} (hremaining : s.remaining = entry :: rest) : done ++ [entry.id] <+: l.plan attempt := by
  cases hstage with
  | @ahead more split left clean =>
    obtain ⟨id, more, rfl⟩ := List.exists_cons_of_ne_nil left
    have hkeys := h.remaining_ahead split
    rw [hremaining, List.map_cons, List.map_cons, List.cons_append] at hkeys
    have hid : entry.id = id := congrArg Prod.fst (List.cons.inj hkeys).1
    subst hid
    rw [Layout.plan]
    apply List.IsPrefix.trans _ (List.prefix_append _ _)
    rw [Layout.head]
    rcases List.eq_nil_or_concat more with rfl | ⟨before, last, rfl⟩
    · -- the test is next
      obtain ⟨hbefore, htest⟩ := List.append_inj' split rfl
      have hany : l.before.any (fails attempt) = false := by
        rw [List.any_eq_false, hbefore]
        exact fun id hid => by simp [clean id hid]
      rw [hany, hbefore, upTo_of_forall clean, ← (List.cons.inj htest).1]
      exact List.prefix_refl _
    · rw [List.concat_eq_append, ← List.cons_append, ← List.append_assoc] at split
      obtain ⟨hbefore, -⟩ := List.append_inj' split rfl
      rw [hbefore]
      exact (prefix_upTo _ clean).trans (List.prefix_append _ _)
  | @past front split clean =>
    obtain ⟨more, hbehind, hkeys⟩ := h.remaining_past split
    obtain ⟨id, more, rfl⟩ : ∃ id more', more = id :: more' := by
      apply List.exists_cons_of_ne_nil
      rintro rfl
      rw [hremaining] at hkeys
      cases hkeys
    rw [hremaining, List.map_cons, List.map_cons] at hkeys
    have hid : entry.id = id := congrArg Prod.fst (List.cons.inj hkeys).1
    rw [Layout.plan, hbehind, ← hid, List.append_assoc]
    exact (List.prefix_append_right_inj _).2 (prefix_upTo _ clean)
  | cut complete =>
    rw [hremaining] at complete
    cases complete

/-- **What was started is as the plan has it**, up to the active entry. -/
theorem InAttempt.starts_within (h : InAttempt l attempt s) : starts attempt <+: l.plan attempt := by
  cases hremaining : s.remaining with
  | nil => exact (h.starts_eq hremaining) ▸ List.prefix_refl _
  | cons entry rest =>
    obtain ⟨done, hstage, hstarts⟩ := h.stage
    apply List.IsPrefix.trans _ (hstage.prefix_plan h hremaining)
    rw [hstarts]
    apply (List.prefix_append_right_inj done).2
    rw [ExecutionSequence.runningIds, ExecutionSequence.activeEntry, hremaining]
    split
    · exact List.prefix_refl _
    · exact List.nil_prefix

end Stages

/-! ### What a step keeps -/

namespace ExecutionSequence

theorem started_kept (s : ExecutionSequence) (now now' : Timespec) :
    (s.started now now').testEntry = s.testEntry ∧ (s.started now now').maybeSkip = s.maybeSkip := by
  obtain ⟨startedAt, timespec, heq⟩ := s.started_eq now now'
  rw [heq]
  exact ⟨rfl, rfl⟩

theorem handleUncaughtException_kept (s : ExecutionSequence) : s.handleUncaughtException.testEntry = s.testEntry ∧
    s.handleUncaughtException.executing = s.executing ∧ s.handleUncaughtException.maybeSkip = true := by
  rw [handleUncaughtException]
  dsimp only
  split
  · split
    · split <;> exact ⟨rfl, rfl, rfl⟩
    · exact ⟨rfl, rfl, rfl⟩
  · exact ⟨rfl, rfl, rfl⟩

theorem evaluateTimeout_kept {s : ExecutionSequence} {now : Timespec} (h : (s.evaluateTimeout now).1 = true) :
    (s.evaluateTimeout now).2.testEntry = s.testEntry ∧ (s.evaluateTimeout now).2.executing = s.executing ∧
      (s.evaluateTimeout now).2.maybeSkip = true := by
  rw [evaluateTimeout] at h ⊢
  split at h
  · cases h
  · dsimp only
    split at h
    · rename_i hlate
      rw [if_pos hlate]
      exact ⟨rfl, rfl, rfl⟩
    · cases h

theorem skipEntry_kept (s : ExecutionSequence) (mode : ScopeMode) : (s.skipEntry mode).testEntry = s.testEntry ∧
    (s.skipEntry mode).executing = s.executing ∧ (s.skipEntry mode).maybeSkip = s.maybeSkip := by
  unfold skipEntry
  split
  · split <;> exact ⟨rfl, rfl, rfl⟩
  · exact ⟨rfl, rfl, rfl⟩

theorem Same.complete {s s' : ExecutionSequence} (h : s.Same s') (hcomplete : s.remaining = []) : s'.remaining = [] := by
  have hremaining := h.remaining
  rwa [hcomplete, List.map_nil, List.map_eq_nil_iff] at hremaining

theorem remaining_ne_nil {s : ExecutionSequence} {entry : ExecutionEntry} (h : s.activeEntry = some entry) :
    s.remaining ≠ [] := by
  intro hnil
  rw [activeEntry, hnil] at h
  cases h

end ExecutionSequence

section Steps
variable {l : Layout} {attempt : List Event} {s s' : ExecutionSequence} {e : Event}

theorem InAttempt.active_not_passed (h : InAttempt l attempt s)
    (hdistinct : (l.before ++ [l.test] ++ l.behind attempt).Nodup) {id : Nat}
    (hactive : s.activeEntry.map ExecutionEntry.id = some id) : id ∉ s.passedIds := by
  rw [← h.ids, List.nodup_append] at hdistinct
  rw [ExecutionSequence.activeEntry, ← List.head?_map] at hactive
  intro hmem
  exact hdistinct.2.2 id hmem id (List.mem_of_mem_head? hactive) rfl

/-- A step that leaves the entries where they are. -/
theorem InAttempt.same (h : InAttempt l attempt s) (hdistinct : (l.before ++ [l.test] ++ l.behind attempt).Nodup)
    (hsame : s.Same s') (htest : s'.testEntry = s.testEntry) (hafter : e.afterHook = none) (hfinished : e.finishedHook = none)
    (hfailed : ∀ id, e = .failed id → s.activeEntry.map ExecutionEntry.id = some id)
    (hskip : ∀ entry, s'.activeEntry = some entry → s'.maybeSkip = fails (attempt ++ [e]) entry.id)
    (hrunning : s.runningIds ++ e.startedEntry.toList = s'.runningIds) (hfinal : e = .finished → s.remaining = []) :
    InAttempt l (attempt ++ [e]) s' where
  keys := by
    rw [hsame.keys, h.keys, Layout.keys, ← behind_append attempt e l hafter hfinished]
    rfl
  testEntry := htest ▸ h.testEntry
  failed id hid := by
    have hpassed : s'.passedIds = s.passedIds := hsame.passed_ids
    rw [hpassed, hsame.active_id]
    rw [fails_append, Bool.or_eq_true, decide_eq_true_eq] at hid
    rcases hid with hid | rfl
    · exact h.failed id hid
    · exact .inr (hfailed id rfl)
  maybeSkip := hskip
  stage := by
    obtain ⟨done, hstage, hstarts⟩ := h.stage
    refine ⟨done, hstage.congr hsame.passed_ids ?_ ?_, ?_⟩
    · intro hcomplete
      refine ⟨hsame.complete hcomplete, plan_append attempt e l ?_ hafter hfinished⟩
      rintro id rfl
      have hactive := hfailed id rfl
      rw [ExecutionSequence.activeEntry, hcomplete] at hactive
      cases hactive
    · intro id hid
      have hne : e ≠ .failed id := by
        rintro rfl
        exact h.active_not_passed hdistinct (hfailed id rfl) hid
      simp [fails_append, hne]
    · rw [starts_append, hstarts, List.append_assoc, hrunning]
  finished hmem := by
    apply hsame.complete
    rcases List.mem_append.1 hmem with hmem | hmem
    · exact h.finished hmem
    · exact hfinal (List.mem_singleton.1 hmem).symm

theorem runningIds_congr (hactive : s'.activeEntry.map ExecutionEntry.id = s.activeEntry.map ExecutionEntry.id)
    (hexecuting : s'.executing = s.executing) : s'.runningIds = s.runningIds := by
  rw [ExecutionSequence.runningIds, hactive, hexecuting, ExecutionSequence.runningIds]

variable {entry : ExecutionEntry}

/-- Whether the active entry fails is told by the events for it. -/
theorem InAttempt.maybeSkip_same (h : InAttempt l attempt s) (hsame : s.Same s') (hskip : s'.maybeSkip = s.maybeSkip)
    (hfailed : ∀ id, e ≠ .failed id) (hactive : s'.activeEntry = some entry) :
    s'.maybeSkip = fails (attempt ++ [e]) entry.id := by
  have hid := hsame.active_id
  rw [hactive, Option.map_some, eq_comm, Option.map_eq_some_iff] at hid
  obtain ⟨entry', hactive', hid⟩ := hid
  rw [fails_of_not_failed attempt e hfailed, hskip, h.maybeSkip entry' hactive', hid]

theorem InAttempt.start (h : InAttempt l attempt s) (hdistinct : (l.before ++ [l.test] ++ l.behind attempt).Nodup)
    (hactive : s.activeEntry = some entry) (hwaiting : s.executing = false) (now now' : Timespec) :
    InAttempt l (attempt ++ [.started entry.id]) (s.started now now') := by
  have hsame := s.same_started now now'
  obtain ⟨htest, hskip⟩ := s.started_kept now now'
  obtain ⟨hexecuting, -, -, -, hid⟩ := s.started_spec now now'
  apply h.same (e := .started entry.id) hdistinct hsame htest rfl rfl (by simp) _ _ (by simp)
  · exact fun _ hactive' => h.maybeSkip_same hsame hskip (by simp) hactive'
  · rw [ExecutionSequence.runningIds, hwaiting, ExecutionSequence.runningIds, hexecuting, hid, hactive]
    rfl

/-- An exception or a timeout is for the active entry. -/
theorem InAttempt.fail (h : InAttempt l attempt s) (hdistinct : (l.before ++ [l.test] ++ l.behind attempt).Nodup)
    (hactive : s.activeEntry = some entry) (hsame : s.Same s')
    (hkept : s'.testEntry = s.testEntry ∧ s'.executing = s.executing ∧ s'.maybeSkip = true) :
    InAttempt l (attempt ++ [.failed entry.id]) s' := by
  obtain ⟨htest, hexecuting, hskip⟩ := hkept
  have hid := hsame.active_id
  apply h.same (e := .failed entry.id) hdistinct hsame htest rfl rfl _ _ _ (by simp)
  · intro id heq
    cases heq
    rw [hactive]
    rfl
  · intro entry' hactive'
    rw [hactive, hactive'] at hid
    rw [hskip, fails_append, Option.some.inj hid]
    simp
  · rw [runningIds_congr hid hexecuting]
    exact List.append_nil _

/-- A step that the order does not depend on -/
theorem InAttempt.plain (h : InAttempt l attempt s) (hdistinct : (l.before ++ [l.test] ++ l.behind attempt).Nodup)
    (hsame : s.Same s')
    (hkept : s'.testEntry = s.testEntry ∧ s'.executing = s.executing ∧ s'.maybeSkip = s.maybeSkip)
    (hafter : e.afterHook = none) (hfinished : e.finishedHook = none) (hfailed : ∀ id, e ≠ .failed id)
    (hstarted : e.startedEntry = none) (hfinal : e = .finished → s.remaining = []) : InAttempt l (attempt ++ [e]) s' := by
  obtain ⟨htest, hexecuting, hskip⟩ := hkept
  apply h.same hdistinct hsame htest hafter hfinished _ _ _ hfinal
  · exact fun id heq => absurd heq (hfailed id)
  · exact fun _ hactive' => h.maybeSkip_same hsame hskip hfailed hactive'
  · rw [runningIds_congr hsame.active_id hexecuting, hstarted]
    exact List.append_nil _

theorem InAttempt.ahead_of_active (h : InAttempt l attempt s) (hdistinct : (l.before ++ [l.test] ++ l.behind attempt).Nodup)
    (hactive : s.activeEntry = some entry) (hmem : entry.id ∈ l.before ++ [l.test]) :
    ∃ rest, l.before ++ [l.test] = s.passedIds ++ rest ∧ rest ≠ [] := by
  obtain ⟨done, hstage, -⟩ := h.stage
  cases hstage with
  | @ahead rest split left clean => exact ⟨rest, split, left⟩
  | @past front split clean =>
    exfalso
    have hid : s.activeEntry.map ExecutionEntry.id = some entry.id := by rw [hactive]; rfl
    apply h.active_not_passed hdistinct hid
    rw [split]
    exact List.mem_append_left _ hmem
  | cut complete => exact absurd complete (ExecutionSequence.remaining_ne_nil hactive)

end Steps

/-! ### Hooks that are registered -/

theorem insertIdx_append {α : Type} (front back : List α) (a : α) :
    (front ++ back).insertIdx front.length a = front ++ a :: back := by
  induction front with
  | nil => simp
  | cons x front ih => simp [ih]

/-- A hook goes right behind the test that is still to come. -/
theorem ExecutionSequence.addHook_behind {s : ExecutionSequence} {front back : List ExecutionEntry}
    {test : ExecutionEntry} (hremaining : s.remaining = front ++ test :: back)
    (htest : s.testEntry.map ExecutionEntry.id = some test.id) (hfront : ∀ e ∈ front, e.id ≠ test.id) {tag : HookTag}
    (htag : tag ≠ .onTestFinished) (hook : ExecutionEntry) :
    (s.addHook tag hook).remaining = front ++ test :: hook :: back := by
  have hindex : (s.remaining.findIdx fun e => some e.id = s.testEntry.map ExecutionEntry.id) = front.length := by
    have hbefore : ∀ e ∈ front, decide (some e.id = some test.id) = false := by
      intro e he
      simpa using hfront e he
    rw [hremaining, htest, List.findIdx_append, List.findIdx_eq_length_of_false hbefore, if_neg (Nat.lt_irrefl _),
      List.findIdx_cons]
    simp
  have hinsert : s.remaining.insertIdx (front.length + 1) hook = front ++ test :: hook :: back := by
    have h := insertIdx_append (front ++ [test]) back hook
    rw [List.length_append, List.length_singleton, List.append_assoc, List.append_assoc] at h
    rw [hremaining]
    exact h
  have hlt : front.length < s.remaining.length := by
    rw [hremaining, List.length_append, List.length_cons]
    omega
  cases tag with
  | onTestFinished => cases htag rfl
  | afterAll =>
    simp only [addHook, hindex, if_pos hlt]
    exact hinsert
  | afterEach =>
    simp only [addHook, hindex, if_pos hlt]
    exact hinsert

section Register
variable {l : Layout} {attempt : List Event} {s : ExecutionSequence} {entry hook : ExecutionEntry} {tag : HookTag}

theorem InAttempt.keys_register (h : InAttempt l attempt s)
    (hdistinct : (l.before ++ [l.test] ++ l.behind attempt).Nodup) (hactive : s.activeEntry = some entry)
    (hskipping : hook.failureSkipPast = none) (htimely : tag ≠ .onTestFinished → entry.id ∈ l.before ++ [l.test]) :
    (s.addHook tag hook).keys = l.keys (attempt ++ [.registered tag hook.id entry.id]) := by
  have hkey : hook.key = (hook.id, none) := by rw [ExecutionEntry.key, hskipping]
  have hkeys := h.keys
  by_cases htag : tag = .onTestFinished
  · subst htag
    have hbehind : l.behind (attempt ++ [.registered .onTestFinished hook.id entry.id]) = l.behind attempt ++ [hook.id] := by
      simp [Layout.behind, afterHooks_append, finishedHooks_append, Event.afterHook, Event.finishedHook]
    have hadded : (s.addHook .onTestFinished hook).keys = s.keys ++ [hook.key] := by
      simp [ExecutionSequence.keys, ExecutionSequence.entries, ExecutionSequence.addHook]
    rw [hadded, hkeys, hkey]
    simp [Layout.keys, hbehind]
  · obtain ⟨rest, hsplit, hleft⟩ := h.ahead_of_active hdistinct hactive (htimely htag)
    -- the test is the last of those up to it
    obtain ⟨before, last, rfl⟩ := (List.eq_nil_or_concat rest).resolve_left hleft
    rw [List.concat_eq_append] at hsplit
    have hsplit' := hsplit
    rw [← List.append_assoc] at hsplit'
    obtain ⟨hbefore, hlast⟩ := List.append_inj' hsplit' rfl
    cases hlast
    obtain ⟨ahead, back, hremaining, hahead, hback⟩ := List.map_eq_append_iff.1 (h.remaining_ahead hsplit)
    rw [List.map_append] at hahead
    obtain ⟨front, last, rfl, hfront, hlast⟩ := List.map_eq_append_iff.1 hahead
    obtain ⟨test, rfl, htest⟩ := List.map_eq_singleton_iff.1 hlast
    have hid : test.id = l.test := congrArg Prod.fst htest
    have hne : ∀ e ∈ front, e.id ≠ test.id := by
      intro e he heq
      have hmem : e.key ∈ before.map fun id => (id, some l.test) := hfront ▸ List.mem_map_of_mem he
      obtain ⟨id, hmem, hkey⟩ := List.mem_map.1 hmem
      have hid' : id = e.id := congrArg Prod.fst hkey
      have hnodup := (List.nodup_append.1 hdistinct).1
      rw [hbefore] at hnodup
      refine (List.nodup_append.1 hnodup).2.2 id (List.mem_append_right _ hmem) l.test (List.mem_singleton_self _) ?_
      rw [hid', heq, hid]
    rw [List.append_assoc, List.singleton_append] at hremaining
    have hadded := ExecutionSequence.addHook_behind hremaining (by rw [h.testEntry, hid]) hne htag hook
    have hpassed : (s.addHook tag hook).passed = s.passed := by cases tag <;> rfl
    have hbehind : l.behind (attempt ++ [.registered tag hook.id entry.id]) = hook.id :: l.behind attempt := by
      cases tag with
      | onTestFinished => cases htag rfl
      | _ => simp [Layout.behind, afterHooks_append, finishedHooks_append, Event.afterHook, Event.finishedHook]
    have hupto : s.passed.map ExecutionEntry.key ++ (front ++ [test]).map ExecutionEntry.key =
        (l.before ++ [l.test]).map fun id => (id, some l.test) := by
      apply (List.append_left_inj (back.map ExecutionEntry.key)).1
      rw [ExecutionSequence.keys, ExecutionSequence.entries, hremaining, Layout.keys, ← hback] at hkeys
      rw [← hkeys]
      simp
    rw [ExecutionSequence.keys, ExecutionSequence.entries, hpassed, hadded, Layout.keys, hbehind, List.map_cons, ← hback,
      ← hkey, ← hupto]
    simp

theorem InAttempt.register (h : InAttempt l attempt s) (hdistinct : (l.before ++ [l.test] ++ l.behind attempt).Nodup)
    (hactive : s.activeEntry = some entry) (hskipping : hook.failureSkipPast = none)
    (htimely : tag ≠ .onTestFinished → entry.id ∈ l.before ++ [l.test]) :
    InAttempt l (attempt ++ [.registered tag hook.id entry.id]) (s.addHook tag hook) := by
  have hne := ExecutionSequence.remaining_ne_nil hactive
  have hquiet := s.quiet_addHook (ExecutionSequence.incomplete_iff.2 hne) tag hook
  have hfails := fails_of_not_failed attempt (.registered tag hook.id entry.id) (by simp)
  have hpassed : (s.addHook tag hook).passedIds = s.passedIds := by
    rw [ExecutionSequence.passedIds, hquiet.passed, ExecutionSequence.passedIds]
  refine ⟨h.keys_register hdistinct hactive hskipping htimely, ?_, ?_, ?_, ?_, ?_⟩
  · rw [← h.testEntry]
    cases tag <;> rfl
  · rw [hfails, hpassed, hquiet.activeEntry]
    exact h.failed
  · rw [hfails, hquiet.activeEntry]
    have hskip : (s.addHook tag hook).maybeSkip = s.maybeSkip := by cases tag <;> rfl
    rw [hskip]
    exact h.maybeSkip
  · obtain ⟨done, hstage, hstarts⟩ := h.stage
    refine ⟨done, hstage.congr hpassed (fun hcomplete => absurd hcomplete hne) fun id _ => by rw [hfails], ?_⟩
    rw [starts_append, hstarts, runningIds_congr (by rw [hquiet.activeEntry]) hquiet.executing]
    exact List.append_nil _
  · intro hmem
    have hfinal : .finished ∈ attempt := by simpa using hmem
    exact absurd (h.finished hfinal) hne

end Register

/-! ### Entries that are completed -/

namespace ExecutionSequence

variable {s : ExecutionSequence} {entry : ExecutionEntry} {rest : List ExecutionEntry}

theorem completeEntry_next (hremaining : s.remaining = entry :: rest) (hskip : s.maybeSkip = false) :
    s.completeEntry = {s with executing := false, passed := s.passed ++ [entry], remaining := rest} := by
  rw [completeEntry, hremaining]
  dsimp only
  rw [hskip]
  simp

theorem completeEntry_all
    (hremaining : s.remaining = entry :: rest) (hskip : s.maybeSkip = true) (hpast : entry.failureSkipPast = none) :
    s.completeEntry =
      {s with executing := false, maybeSkip := false, passed := s.passed ++ s.remaining, remaining := []} := by
  rw [completeEntry, hremaining]
  dsimp only
  rw [if_pos hskip, hpast]

theorem completeEntry_past (hremaining : s.remaining = entry :: rest) (hskip : s.maybeSkip = true) {id : Nat}
    (hpast : entry.failureSkipPast = some id) :
    s.completeEntry = ({s with executing := false, maybeSkip := false} : ExecutionSequence).skipPast id := by
  rw [completeEntry, hremaining]
  dsimp only
  rw [if_pos hskip, hpast]

theorem skipPast_passedIds {front back : List Nat} {id : Nat}
    (hids : s.passedIds ++ s.remaining.map ExecutionEntry.id = front ++ id :: back) (hfront : id ∉ front) :
    (s.skipPast id).passedIds = front ++ [id] := by
  rw [passedIds, ← List.map_append] at hids
  obtain ⟨before, behind, hsplit, hbefore, hbehind⟩ := List.map_eq_append_iff.1 hids
  obtain ⟨entry, rest, rfl, hid, -⟩ := List.map_eq_cons_iff.1 hbehind
  have hnot : ∀ e ∈ before, decide (e.id = id) = false := by
    intro e he
    rw [decide_eq_false_iff_not]
    rintro rfl
    exact hfront (hbefore ▸ List.mem_map_of_mem he)
  have hindex : (s.passed ++ s.remaining).findIdx (fun e => e.id = id) = before.length := by
    rw [hsplit, List.findIdx_append, List.findIdx_eq_length_of_false hnot, if_neg (Nat.lt_irrefl _), List.findIdx_cons]
    simp [hid]
  have hpassed : (s.skipPast id).passed = before ++ [entry] := by
    simp only [skipPast]
    rw [hindex, hsplit, List.take_length_add_append]
    rfl
  rw [passedIds, hpassed, List.map_append, hbefore, List.map_singleton, hid]

theorem completeEntry_kept (h : s.remaining ≠ []) :
    s.completeEntry.testEntry = s.testEntry ∧ s.completeEntry.executing = false ∧ s.completeEntry.maybeSkip = false := by
  obtain ⟨entry, rest, hremaining⟩ := List.exists_cons_of_ne_nil h
  cases hskip : s.maybeSkip with
  | false =>
    rw [completeEntry_next hremaining hskip]
    exact ⟨rfl, rfl, hskip⟩
  | true =>
    cases hpast : entry.failureSkipPast with
    | none =>
      rw [completeEntry_all hremaining hskip hpast]
      exact ⟨rfl, rfl, rfl⟩
    | some id =>
      rw [completeEntry_past hremaining hskip hpast]
      exact ⟨rfl, rfl, rfl⟩

end ExecutionSequence

section Complete
variable {l : Layout} {attempt : List Event} {s : ExecutionSequence} {entry : ExecutionEntry} {rest : List ExecutionEntry}

/-- The active entry, when it is the test or comes before it. -/
theorem InAttempt.active_ahead (h : InAttempt l attempt s) (hremaining : s.remaining = entry :: rest) {more : List Nat}
    (hsplit : l.before ++ [l.test] = s.passedIds ++ more) (hleft : more ≠ []) :
    entry.failureSkipPast = some l.test ∧ ∃ more', more = entry.id :: more' := by
  obtain ⟨id, more, rfl⟩ := List.exists_cons_of_ne_nil hleft
  have hkeys := h.remaining_ahead hsplit
  rw [hremaining, List.map_cons, List.map_cons, List.cons_append] at hkeys
  have hkey := (List.cons.inj hkeys).1
  have hid : entry.id = id := congrArg Prod.fst hkey
  exact ⟨congrArg Prod.snd hkey, more, by rw [hid]⟩

theorem InAttempt.active_past (h : InAttempt l attempt s) (hremaining : s.remaining = entry :: rest) {front : List Nat}
    (hsplit : s.passedIds = l.before ++ [l.test] ++ front) :
    entry.failureSkipPast = none ∧ ∃ more, l.behind attempt = front ++ entry.id :: more := by
  obtain ⟨more, hbehind, hkeys⟩ := h.remaining_past hsplit
  obtain ⟨id, more, rfl⟩ : ∃ id more', more = id :: more' := by
    apply List.exists_cons_of_ne_nil
    rintro rfl
    rw [hremaining] at hkeys
    cases hkeys
  rw [hremaining, List.map_cons, List.map_cons] at hkeys
  have hkey := (List.cons.inj hkeys).1
  have hid : entry.id = id := congrArg Prod.fst hkey
  exact ⟨congrArg Prod.snd hkey, more, by rw [hid, hbehind]⟩

/-- What was started up to the end of the test, when this is the last of it. -/
theorem Layout.head_eq {l : Layout} {front more : List Nat} {id : Nat} (hsplit : l.before ++ [l.test] = front ++ id :: more)
    (hclean : ∀ x ∈ front, fails attempt x = false) (hlast : more = [] ∨ fails attempt id = true) :
    l.head attempt = front ++ [id] := by
  rw [Layout.head]
  rcases List.eq_nil_or_concat more with rfl | ⟨before, last, rfl⟩
  · obtain ⟨hbefore, htest⟩ := List.append_inj' hsplit rfl
    have hany : l.before.any (fails attempt) = false := by
      rw [List.any_eq_false, hbefore]
      exact fun x hx => by simp [hclean x hx]
    rw [hany, hbefore, upTo_of_forall hclean, ← (List.cons.inj htest).1]
    rfl
  · have hfails : fails attempt id = true := hlast.resolve_left (by simp)
    rw [List.concat_eq_append, ← List.cons_append, ← List.append_assoc] at hsplit
    obtain ⟨hbefore, -⟩ := List.append_inj' hsplit rfl
    have hany : l.before.any (fails attempt) = true := by
      rw [List.any_eq_true, hbefore]
      exact ⟨id, by simp, hfails⟩
    rw [hany, hbefore, upTo_cut hclean hfails]
    simp

/-- The stage when the active entry is completed: it is done with the others. -/
theorem Stage.complete {done : List Nat} (hstage : Stage l attempt s done) (h : InAttempt l attempt s)
    (hdistinct : (l.before ++ [l.test] ++ l.behind attempt).Nodup) (hremaining : s.remaining = entry :: rest) :
    Stage l attempt s.completeEntry (done ++ [entry.id]) ∧
      (∀ id ∈ s.passedIds, id ∈ s.completeEntry.passedIds) ∧ entry.id ∈ s.completeEntry.passedIds := by
  have hskip := h.maybeSkip entry (by rw [ExecutionSequence.activeEntry, hremaining]; rfl)
  have hnext : s.maybeSkip = false → s.completeEntry.passedIds = s.passedIds ++ [entry.id] := by
    intro hclean
    rw [ExecutionSequence.completeEntry_next hremaining hclean]
    simp [ExecutionSequence.passedIds]
  cases hstage with
  | @ahead more split left clean =>
    obtain ⟨hpast, more, rfl⟩ := h.active_ahead hremaining split left
    cases hfails : fails attempt entry.id with
    | false =>
      have hpassed := hnext (hskip.trans hfails)
      have hclean : ∀ id ∈ s.completeEntry.passedIds, fails attempt id = false := by
        rw [hpassed]
        intro id hid
        rcases List.mem_append.1 hid with hid | hid
        · exact clean id hid
        · rw [List.mem_singleton.1 hid, hfails]
      refine ⟨?_, fun id hid => hpassed ▸ List.mem_append_left _ hid, by simp [hpassed]⟩
      rw [← hpassed]
      by_cases hmore : more = []
      · subst hmore
        have hhead := Layout.head_eq split clean (.inl rfl)
        have hstage : Stage l attempt s.completeEntry (l.head attempt ++ []) :=
          .past (by rw [hpassed, ← split, List.append_nil]) (by simp)
        rwa [hhead, List.append_nil, ← hpassed] at hstage
      · have hsplit : l.before ++ [l.test] = s.completeEntry.passedIds ++ more := by
          rw [hpassed, split]
          simp
        exact .ahead hsplit hmore hclean
    | true =>
      -- the test is skipped, and it is where the list goes on
      have hids := h.ids
      rw [List.append_assoc, List.singleton_append] at hids
      have hfront : l.test ∉ l.before := by
        intro hmem
        have hnodup := (List.nodup_append.1 hdistinct).1
        exact (List.nodup_append.1 hnodup).2.2 _ hmem _ (List.mem_singleton_self _) rfl
      have hpassed : s.completeEntry.passedIds = l.before ++ [l.test] := by
        rw [ExecutionSequence.completeEntry_past hremaining (hskip.trans hfails) hpast]
        exact ExecutionSequence.skipPast_passedIds hids hfront
      have hhead := Layout.head_eq split clean (.inr hfails)
      have hstage : Stage l attempt s.completeEntry (l.head attempt ++ []) :=
        .past (by rw [hpassed, List.append_nil]) (by simp)
      rw [hhead, List.append_nil] at hstage
      refine ⟨hstage, ?_, ?_⟩
      · intro id hid
        rw [hpassed, split]
        exact List.mem_append_left _ hid
      · rw [hpassed, split]
        simp
  | @past front split clean =>
    obtain ⟨hpast, more, hbehind⟩ := h.active_past hremaining split
    cases hfails : fails attempt entry.id with
    | false =>
      have hpassed := hnext (hskip.trans hfails)
      refine ⟨?_, fun id hid => hpassed ▸ List.mem_append_left _ hid, by simp [hpassed]⟩
      rw [List.append_assoc]
      apply Stage.past
      · rw [hpassed, split, List.append_assoc _ front]
      · intro id hid
        rcases List.mem_append.1 hid with hid | hid
        · exact clean id hid
        · rw [List.mem_singleton.1 hid, hfails]
    | true =>
      have hall := ExecutionSequence.completeEntry_all hremaining (hskip.trans hfails) hpast
      have hplan : l.plan attempt = l.head attempt ++ front ++ [entry.id] := by
        rw [Layout.plan, hbehind, upTo_cut clean hfails, List.append_assoc]
      have hpassed : s.completeEntry.passedIds = s.passedIds ++ s.remaining.map ExecutionEntry.id := by
        rw [hall]
        simp [ExecutionSequence.passedIds]
      refine ⟨?_, ?_, ?_⟩
      · rw [← hplan]
        apply Stage.cut
        rw [hall]
      · intro id hid
        rw [hpassed]
        exact List.mem_append_left _ hid
      · rw [hpassed, hremaining]
        simp
  | cut complete =>
    rw [hremaining] at complete
    cases complete

theorem InAttempt.complete (h : InAttempt l attempt s) (hdistinct : (l.before ++ [l.test] ++ l.behind attempt).Nodup)
    (hactive : s.activeEntry = some entry) (hexecuting : s.executing = true) :
    InAttempt l (attempt ++ [.completed entry.id]) s.completeEntry := by
  obtain ⟨rest, hremaining⟩ : ∃ rest, s.remaining = entry :: rest := List.head?_eq_some_iff.1 hactive
  have hne : s.remaining ≠ [] := by simp [hremaining]
  obtain ⟨done, hstage, hstarts⟩ := h.stage
  obtain ⟨hstage', hpassed, hentry⟩ := hstage.complete h hdistinct hremaining
  obtain ⟨htest, hstopped, hskip⟩ := ExecutionSequence.completeEntry_kept hne
  have hfails := fails_of_not_failed attempt (.completed entry.id) (by simp)
  have hkeys : s.completeEntry.keys = s.keys := by
    rw [ExecutionSequence.keys, s.completeEntry_entries, ExecutionSequence.keys]
  have hfailed : ∀ id, fails attempt id = true → id ∈ s.completeEntry.passedIds := by
    intro id hid
    rcases h.failed id hid with hmem | hmem
    · exact hpassed id hmem
    · rw [hactive, Option.map_some, Option.some.injEq] at hmem
      exact hmem ▸ hentry
  have hsame : l.behind (attempt ++ [.completed entry.id]) = l.behind attempt :=
    behind_append attempt (.completed entry.id) l rfl rfl
  refine ⟨?_, htest ▸ h.testEntry, ?_, ?_, ⟨done ++ [entry.id], ?_, ?_⟩, ?_⟩
  · rw [hkeys, h.keys, Layout.keys, Layout.keys, hsame]
  · rw [hfails]
    exact fun id hid => .inl (hfailed id hid)
  · intro entry' hactive'
    rw [hskip, hfails]
    cases hfails' : fails attempt entry'.id with
    | false => rfl
    | true =>
      -- what failed is behind
      exfalso
      have hids := s.completeEntry.keys_ids
      rw [hkeys, h.keys, l.keys_ids] at hids
      rw [hids, List.nodup_append] at hdistinct
      exact hdistinct.2.2 _ (hfailed _ hfails') _ (List.mem_map_of_mem (List.mem_of_mem_head? hactive')) rfl
  · apply hstage'.congr rfl
    · intro hcomplete
      exact ⟨hcomplete, plan_append attempt _ l (by simp) rfl rfl⟩
    · exact fun id _ => by rw [hfails]
  · have hrunning : s.runningIds = [entry.id] := by
      rw [ExecutionSequence.runningIds, hexecuting, hactive]
      rfl
    rw [starts_append, hstarts, hrunning, ExecutionSequence.runningIds, hstopped]
    rfl
  · intro hmem
    have hfinal : .finished ∈ attempt := by simpa using hmem
    exact absurd (h.finished hfinal) hne

end Complete

/-! ### Steps -/

/-- An attempt begins. -/
theorem InAttempt.begin {l : Layout} {s : ExecutionSequence} (hpassed : s.passed = [])
    (hremaining : s.remaining.map ExecutionEntry.key = l.keys []) (htest : s.testEntry.map ExecutionEntry.id = some l.test)
    (hexecuting : s.executing = false) (hskip : s.maybeSkip = false) : InAttempt l [] s where
  keys := by
    rw [ExecutionSequence.keys, ExecutionSequence.entries, hpassed]
    exact hremaining
  testEntry := htest
  failed := by simp [fails]
  maybeSkip := by simp [fails, hskip]
  stage := by
    have hnone : s.passedIds = [] := by rw [ExecutionSequence.passedIds, hpassed, List.map_nil]
    have hsplit : l.before ++ [l.test] = s.passedIds ++ (l.before ++ [l.test]) := by rw [hnone, List.nil_append]
    refine ⟨s.passedIds, .ahead hsplit (by simp) (by simp [hnone]), ?_⟩
    simp [starts, hnone, ExecutionSequence.runningIds, hexecuting]
  finished := by simp

/-- **Every step keeps to the order**, as long as the attempt goes on. -/
theorem InAttempt.step {l : Layout} {attempt : List Event} {s s' : ExecutionSequence} {e : Event} (h : InAttempt l attempt s)
    (hdistinct : (l.before ++ [l.test] ++ l.behind attempt).Nodup) (hstep : s.Step e s') (hagain : e.again = false)
    (htimely : l.Timely (attempt ++ [e])) : InAttempt l (attempt ++ [e]) s' := by
  cases hstep with
  | started active waiting now now' => exact h.start hdistinct active waiting now now'
  | called active executing =>
    exact h.plain hdistinct (.refl s) ⟨rfl, rfl, rfl⟩ rfl rfl (by simp) rfl (by simp)
  | exception active => exact h.fail hdistinct active s.same_handleUncaughtException s.handleUncaughtException_kept
  | timeout active late =>
    exact h.fail hdistinct active (s.same_evaluateTimeout _) (ExecutionSequence.evaluateTimeout_kept late)
  | registered active tag added unskipping =>
    exact h.register hdistinct active unskipping (htimely tag _ _ (List.mem_append_right _ (List.mem_singleton_self _)))
  | skipped mode =>
    exact h.plain hdistinct (s.same_skipEntry mode) (s.skipEntry_kept mode) rfl rfl (by simp) rfl (by simp)
  | expected count assertions =>
    exact h.plain hdistinct ⟨rfl, rfl, rfl⟩ ⟨rfl, rfl, rfl⟩ rfl rfl (by simp) rfl (by simp)
  | completed active executing => exact h.complete hdistinct active executing
  | retried complete failed left now => cases hagain
  | repeated complete passed left => cases hagain
  | finished complete unretried unrepeated =>
    exact h.plain hdistinct ⟨rfl, rfl, rfl⟩ ⟨rfl, rfl, rfl⟩ rfl rfl (by simp) rfl fun _ => complete

end Funbun.TestRunner
