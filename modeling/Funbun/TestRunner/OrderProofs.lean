import Mathlib.Data.List.Perm.Subperm
import Funbun.Library.Runs
import Funbun.TestRunner.Order

/-! What a failing `beforeAll` hook skips.

The order that is built has the sequences of the plan, in groups that are the runs of neighbouring concurrent tests
(`Order.Grouped`). A hook's group is to be left for the group that comes first behind its scope, counted when the scope ends.
A concurrent test that comes next still joins the last group then, so the hook skips that test as well. -/
namespace Funbun.TestRunner
open Library.Runs

/-! ### The tree as it is taken -/

/-- The entries of a scope, one after the other, each with what shuffles it. -/
def arrangeChildren (scopeOnly : Only) :
    List (TestScheduleEntry × (Option Prng → TestScheduleEntry × Option Prng)) → Option Prng →
      List TestScheduleEntry × Option Prng
  | [], r => ([], r)
  | (entry, arrange) :: rest, r =>
    if leftOut scopeOnly entry then
      let (entries, r) := arrangeChildren scopeOnly rest r
      (entry :: entries, r)
    else
      let (entry, r) := arrange r
      let (entries, r) := arrangeChildren scopeOnly rest r
      (entry :: entries, r)

def shuffled {α : Type} (buf : List α) : Option Prng → List α × Option Prng
  | none => (buf, none)
  | some r =>
    let (buf, r) := shuffleWithIndex r buf
    (buf, some r)

mutual

/-- A scope with its entries, and those below, in the order the seed puts them in. -/
def DescribeScope.arrange (scope : DescribeScope) (r : Option Prng) : DescribeScope × Option Prng :=
  match scope with
  | ⟨base, entries, beforeAll, beforeEach, afterEach, afterAll, failed⟩ =>
    if failed then (⟨base, entries, beforeAll, beforeEach, afterEach, afterAll, failed⟩, r)
    else
      let (children, r) := shuffled (arrangers entries) r
      let (entries, r) := arrangeChildren base.only children r
      (⟨base, entries, beforeAll, beforeEach, afterEach, afterAll, failed⟩, r)
  termination_by structural scope

def TestScheduleEntry.arrange (entry : TestScheduleEntry) (r : Option Prng) :
    TestScheduleEntry × Option Prng :=
  match entry with
  | .describe scope =>
    let (scope, r) := scope.arrange r
    (.describe scope, r)
  | .testCallback test => (.testCallback test, r)
  termination_by structural entry

def arrangers (entries : List TestScheduleEntry) :
    List (TestScheduleEntry × (Option Prng → TestScheduleEntry × Option Prng)) :=
  match entries with
  | [] => []
  | entry :: entries => (entry, entry.arrange) :: arrangers entries
  termination_by structural entries

end

/-! ### The plan -/

def hookSequence (entry : ExecutionEntry) : ExecutionSequence :=
  .init [{entry with failureSkipPast := none}] none 0 0

def testSequence (parents : List EachHooks) (test : ExecutionEntry) : ExecutionSequence :=
  .init (testEntries parents test) (some test) test.retryCount test.repeatCount

/-- The sequences of `beforeAll` or `afterAll` hooks, if they are used. -/
def hookSequences (used : Bool) (hooks : List ExecutionEntry) : List ExecutionSequence :=
  if used then hooks.map hookSequence else []

mutual

def DescribeScope.plan (always : Bool) (parents : List EachHooks) (scope : DescribeScope) :
    List ExecutionSequence :=
  match scope with
  | ⟨base, entries, beforeAll, beforeEach, afterEach, afterAll, failed⟩ =>
    if failed then []
    else
      hookSequences (always || base.hasCallback) beforeAll ++
        (planOf always (⟨beforeEach, afterEach⟩ :: parents) base.only entries ++
          hookSequences (always || base.hasCallback) afterAll)
  termination_by structural scope

def TestScheduleEntry.plan (always : Bool) (parents : List EachHooks) (entry : TestScheduleEntry) :
    List ExecutionSequence :=
  match entry with
  | .describe scope => scope.plan always parents
  | .testCallback test => [testSequence parents test]
  termination_by structural entry

def planOf (always : Bool) (parents : List EachHooks) (scopeOnly : Only) (entries : List TestScheduleEntry) :
    List ExecutionSequence :=
  match entries with
  | [] => []
  | entry :: entries =>
    (if leftOut scopeOnly entry then [] else entry.plan always parents) ++
      planOf always parents scopeOnly entries
  termination_by structural entries

end

mutual

/-- The tests of a scope that are to be scheduled. -/
def DescribeScope.scheduledTests (scope : DescribeScope) : List ExecutionEntry :=
  match scope with
  | ⟨base, entries, _, _, _, _, failed⟩ => if failed then [] else scheduledTestsOf base.only entries
  termination_by structural scope

def TestScheduleEntry.scheduledTests (entry : TestScheduleEntry) : List ExecutionEntry :=
  match entry with
  | .describe scope => scope.scheduledTests
  | .testCallback test => [test]
  termination_by structural entry

def scheduledTestsOf (scopeOnly : Only) (entries : List TestScheduleEntry) : List ExecutionEntry :=
  match entries with
  | [] => []
  | entry :: entries =>
    (if leftOut scopeOnly entry then [] else entry.scheduledTests) ++ scheduledTestsOf scopeOnly entries
  termination_by structural entries

end

def DescribeScope.eachHooks (s : DescribeScope) : EachHooks := ⟨s.beforeEach, s.afterEach⟩

def DescribeScope.usesHooks (s : DescribeScope) (always : Bool) : Bool := always || s.base.hasCallback

/-- The sequences of a scope without its own `beforeAll` and `afterAll` hooks. -/
def DescribeScope.body (s : DescribeScope) (always : Bool) (parents : List EachHooks) : List ExecutionSequence :=
  planOf always (s.eachHooks :: parents) s.base.only s.entries

theorem DescribeScope.plan_eq (s : DescribeScope) (always : Bool) (parents : List EachHooks) :
    s.plan always parents =
      if s.failed then []
      else hookSequences (s.usesHooks always) s.beforeAll ++
        (s.body always parents ++ hookSequences (s.usesHooks always) s.afterAll) := by
  cases s
  rfl

/-- A scope that is scheduled below another one, with the sequences that are before and
behind it there. -/
inductive Placed (always : Bool) : List EachHooks → DescribeScope → List ExecutionSequence →
    List EachHooks → DescribeScope → List ExecutionSequence → Prop
  | here (parents : List EachHooks) (s : DescribeScope) (scheduled : s.failed = false) :
    Placed always parents s [] parents s []
  | inside {parents : List EachHooks} {s : DescribeScope} (scheduled : s.failed = false)
    {entries rest : List TestScheduleEntry} {child : DescribeScope}
    (split : s.entries = entries ++ .describe child :: rest)
    (taken : leftOut s.base.only (.describe child) = false)
    {before after : List ExecutionSequence} {parents' : List EachHooks} {scope : DescribeScope}
    (below : Placed always (s.eachHooks :: parents) child before parents' scope after) :
    Placed always parents s
      (hookSequences (s.usesHooks always) s.beforeAll ++
        (planOf always (s.eachHooks :: parents) s.base.only entries ++ before))
      parents' scope
      (after ++ (planOf always (s.eachHooks :: parents) s.base.only rest ++
        hookSequences (s.usesHooks always) s.afterAll))

/-! ### Shuffles -/

section Shuffles
variable {α β : Type}

theorem swap_map (f : α → β) (buf : List α) (i j : Nat) : swap (buf.map f) i j = (swap buf i j).map f := by
  simp only [swap, List.getElem?_map]
  cases buf[i]? with
  | none => rfl
  | some a =>
    cases buf[j]? with
    | none => rfl
    | some b => simp [List.map_set]

theorem swap_perm (buf : List α) (i j : Nat) : (swap buf i j).Perm buf := by
  rw [swap]
  split
  · rename_i a b ha hb
    obtain ⟨hi, rfl⟩ := List.getElem?_eq_some_iff.mp ha
    obtain ⟨hj, rfl⟩ := List.getElem?_eq_some_iff.mp hb
    exact List.set_set_perm hi hj
  · exact List.Perm.refl _

theorem shuffleWithIndex_map (f : α → β) (r : Prng) (buf : List α) :
    shuffleWithIndex r (buf.map f) = ((shuffleWithIndex r buf).1.map f, (shuffleWithIndex r buf).2) := by
  rw [shuffleWithIndex, shuffleWithIndex, List.length_map]
  generalize List.range (buf.length - 1) = is
  induction is generalizing r buf with
  | nil => rfl
  | cons i is ih =>
    simp only [List.foldl_cons, List.length_map, swap_map]
    exact ih _ _

theorem shuffleWithIndex_perm (r : Prng) (buf : List α) : (shuffleWithIndex r buf).1.Perm buf := by
  rw [shuffleWithIndex]
  generalize List.range (buf.length - 1) = is
  induction is generalizing r buf with
  | nil => exact List.Perm.refl _
  | cons i is ih => exact (ih _ _).trans (swap_perm _ _ _)

theorem shuffled_map (f : α → β) (buf : List α) (r : Option Prng) :
    shuffled (buf.map f) r = ((shuffled buf r).1.map f, (shuffled buf r).2) := by
  cases r with
  | none => rfl
  | some r => simp only [shuffled, shuffleWithIndex_map]

theorem shuffled_perm (buf : List α) (r : Option Prng) : (shuffled buf r).1.Perm buf := by
  cases r with
  | none => exact List.Perm.refl _
  | some r => exact shuffleWithIndex_perm r buf

theorem Order.shuffle_eq (o : Order) (buf : List α) :
    o.shuffle buf = ((shuffled buf o.randomize).1, {o with randomize := (shuffled buf o.randomize).2}) := by
  obtain ⟨groups, sequences, previous, always, randomize⟩ := o
  cases randomize <;> rfl

end Shuffles

theorem generators_eq (parents : List EachHooks) (entries : List TestScheduleEntry) :
    generators parents entries = entries.map fun entry => (entry, generateOrderSub parents entry) := by
  induction entries with
  | nil => rfl
  | cons entry entries ih => rw [generators, ih, List.map_cons]

theorem arrangers_eq (entries : List TestScheduleEntry) :
    arrangers entries = entries.map fun entry => (entry, entry.arrange) := by
  induction entries with
  | nil => rfl
  | cons entry entries ih => rw [arrangers, ih, List.map_cons]

/-! ### Groups are runs -/

def ExecutionSequence.concurrent (s : ExecutionSequence) : Bool := s.testEntry.any fun test => test.base.concurrent

def joined (a b : ExecutionSequence) : Bool := a.concurrent && b.concurrent

@[simp] theorem concurrent_testSequence (parents : List EachHooks) (test : ExecutionEntry) :
    (testSequence parents test).concurrent = test.base.concurrent := rfl

theorem concurrent_hookSequence (hook : ExecutionEntry) : (hookSequence hook).concurrent = false := rfl

theorem not_joined_hook (l m : List ExecutionSequence) (hook : ExecutionEntry) :
    ¬ Joined joined l (hookSequence hook :: m) := by
  simp [Library.Runs.Joined, joined, concurrent_hookSequence]

theorem count_append_hooks (l : List ExecutionSequence) (hooks : List ExecutionEntry) :
    count joined (l ++ hooks.map hookSequence) = count joined l + hooks.length := by
  induction hooks generalizing l with
  | nil => simp
  | cons hook hooks ih =>
    have hone : count joined [hookSequence hook] = 1 := rfl
    rw [List.map_cons, ← List.singleton_append, ← List.append_assoc, ih,
      count_append_of_not_joined (not_joined_hook _ _ _), hone, List.length_cons]
    omega

def Order.lastConcurrent (o : Order) : Bool := o.sequences.getLast?.any ExecutionSequence.concurrent

/-- A group none of whose sequences has run. -/
def ConcurrentGroup.Untouched (g : ConcurrentGroup) : Prop :=
  g.executing = false ∧ g.nextSequenceIndex = 0 ∧ g.remainingIncompleteEntries = g.sequenceEnd - g.sequenceStart

/-- The groups are the runs of the sequences, and none is left for one that is not behind it. -/
structure Order.Grouped (o : Order) : Prop where
  ranges : o.groups.map (fun g => (g.sequenceStart, g.sequenceEnd)) = spans 0 (o.sequences.splitBy joined)
  previous : o.previousGroupWasConcurrent = o.lastConcurrent
  bounds : ∀ (i : Nat) (g : ConcurrentGroup), o.groups[i]? = some g → i < g.failureSkipTo ∧ g.failureSkipTo ≤ o.groups.length
  untouched : ∀ g ∈ o.groups, g.Untouched

namespace Order

def skipTo (o : Order) (i : Nat) : Option Nat := o.groups[i]?.map ConcurrentGroup.failureSkipTo

theorem grouped_init (alwaysUseHooks : Bool) (randomize : Option Prng) : (init alwaysUseHooks randomize).Grouped where
  ranges := rfl
  previous := rfl
  bounds := by simp [init]
  untouched := by simp [init]

variable {o o' : Order} {x : ExecutionSequence} {i : Nat} {added : List ExecutionSequence}

theorem Grouped.length_groups (h : o.Grouped) : o.groups.length = count joined o.sequences := by
  have hlength := congrArg List.length h.ranges
  rwa [List.length_map, length_spans] at hlength

theorem Grouped.map_sequences (h : o.Grouped) :
    o.groups.map (fun g => g.sequences o.sequences) = o.sequences.splitBy joined := by
  rw [← within_spans_splitBy o.sequences, ← h.ranges, List.map_map]
  rfl

/-- The last group is the last run. -/
theorem Grouped.last (h : o.Grouped) {gs : List ConcurrentGroup} {g : ConcurrentGroup}
    {ps : List (List ExecutionSequence)} {p : List ExecutionSequence}
    (hg : o.groups = gs ++ [g]) (hp : o.sequences.splitBy joined = ps ++ [p]) :
    gs.map (fun g => (g.sequenceStart, g.sequenceEnd)) = spans 0 ps ∧
      g.sequenceStart = ps.flatten.length ∧ g.sequenceEnd = o.sequences.length := by
  have hranges := h.ranges
  rw [hg, hp, List.map_append, spans_append] at hranges
  obtain ⟨hgs, hlast⟩ := List.append_inj' hranges rfl
  have hflat : o.sequences = ps.flatten ++ p := by
    rw [← List.flatten_splitBy joined o.sequences, hp]
    simp
  simp only [List.map_singleton, spans, List.cons.injEq, Prod.mk.injEq, Nat.zero_add] at hlast
  exact ⟨hgs, hlast.1.1, by rw [hlast.1.2, hflat, List.length_append]⟩

theorem joined_concat (o : Order) (x : ExecutionSequence) :
    Joined joined o.sequences [x] ↔ o.lastConcurrent = true ∧ x.concurrent = true := by
  cases h : o.sequences.getLast? <;> simp [Library.Runs.Joined, joined, lastConcurrent, h]

/-- What it is to take one more sequence. -/
structure Takes (o o' : Order) (x : ExecutionSequence) : Prop where
  sequences : o'.sequences = o.sequences ++ [x]
  previous : o'.previousGroupWasConcurrent = x.concurrent
  alwaysUseHooks : o'.alwaysUseHooks = o.alwaysUseHooks
  randomize : o'.randomize = o.randomize
  append : ¬ Joined joined o.sequences [x] → o'.groups =
    o.groups ++ [.init o.sequences.length (o.sequences.length + 1) (o.groups.length + 1)]
  extend : Joined joined o.sequences [x] → ∃ gs g, o.groups = gs ++ [g] ∧
    o'.groups = gs ++ [{g with
      sequenceEnd := o.sequences.length + 1
      remainingIncompleteEntries := o.sequences.length + 1 - g.sequenceStart}]

theorem generateAllEntry_takes (o : Order) (entry : ExecutionEntry) :
    o.Takes (o.generateAllEntry entry) (hookSequence entry) where
  sequences := rfl
  previous := rfl
  alwaysUseHooks := rfl
  randomize := rfl
  append _ := by simp [generateAllEntry]
  extend h := absurd h (not_joined_hook _ _ _)

/-- Where the sequences are joined to the next, there is a last group. -/
theorem Grouped.exists_last (h : o.Grouped) (hjoined : Joined joined o.sequences [x]) :
    ∃ gs g ps p, o.groups = gs ++ [g] ∧ o.sequences.splitBy joined = ps ++ [p] ∧
      (o.sequences ++ [x]).splitBy joined = ps ++ [p ++ [x]] := by
  obtain ⟨ps, p, hp, hpx⟩ := splitBy_concat_of_joined hjoined
  have hne : o.groups ≠ [] := by
    apply List.ne_nil_of_length_pos
    rw [h.length_groups, count, hp]
    simp
  exact ⟨_, _, ps, p, (List.dropLast_append_getLast hne).symm, hp, hpx⟩

theorem generateOrderTest_takes (h : o.Grouped) (parents : List EachHooks) (test : ExecutionEntry) :
    o.Takes (o.generateOrderTest parents test) (testSequence parents test) := by
  by_cases hjoined : Joined joined o.sequences [testSequence parents test]
  · obtain ⟨gs, g, ps, p, hg, hp, -⟩ := h.exists_last hjoined
    obtain ⟨hlast, hconcurrent⟩ := (o.joined_concat _).mp hjoined
    rw [← h.previous] at hlast
    rw [concurrent_testSequence] at hconcurrent
    have hend : g.sequenceEnd = o.sequences.length := (h.last hg hp).2.2
    have heq : o.generateOrderTest parents test =
        { o with
          sequences := o.sequences ++ [testSequence parents test]
          previousGroupWasConcurrent := true
          groups := gs ++ [{g with
            sequenceEnd := o.sequences.length + 1
            remainingIncompleteEntries := o.sequences.length + 1 - g.sequenceStart}] } := by
      simp [generateOrderTest, appendOrExtendConcurrentGroup, hg, hconcurrent, hlast, hend,
        ConcurrentGroup.tryExtend, testSequence]
    rw [heq]
    exact ⟨rfl, by simp [hconcurrent], rfl, rfl, absurd hjoined, fun _ => ⟨gs, g, hg, rfl⟩⟩
  · have hboth : ¬ (test.base.concurrent = true ∧ o.previousGroupWasConcurrent = true) := by
      rw [h.previous]
      intro hboth
      exact hjoined ((o.joined_concat _).mpr ⟨hboth.2, hboth.1⟩)
    have heq : o.generateOrderTest parents test =
        { o with
          sequences := o.sequences ++ [testSequence parents test]
          previousGroupWasConcurrent := test.base.concurrent
          groups := o.groups ++ [.init o.sequences.length (o.sequences.length + 1) (o.groups.length + 1)] } := by
      rw [generateOrderTest, appendOrExtendConcurrentGroup]
      simp only [hboth, if_false, testSequence, List.length_append, List.length_singleton]
      split <;> rfl
    rw [heq]
    exact ⟨rfl, rfl, rfl, rfl, fun _ => rfl, fun hjoined' => absurd hjoined' hjoined⟩

theorem Takes.grouped (h : o.Grouped) (ht : o.Takes o' x) : o'.Grouped := by
  have hprevious : o'.previousGroupWasConcurrent = o'.lastConcurrent := by
    simp [ht.previous, lastConcurrent, ht.sequences]
  by_cases hjoined : Joined joined o.sequences [x]
  · obtain ⟨gs, g, hg, hg'⟩ := ht.extend hjoined
    obtain ⟨ps, p, hp, hpx⟩ := splitBy_concat_of_joined hjoined
    obtain ⟨hgs, hstart, hend⟩ := h.last hg hp
    have hlength : o.sequences.length = ps.flatten.length + p.length := by
      rw [← List.flatten_splitBy joined o.sequences, hp]
      simp
    refine ⟨?_, hprevious, ?_, ?_⟩
    · rw [hg', ht.sequences, hpx, List.map_append, hgs, spans_append]
      simp [spans, hstart, hlength, Nat.add_assoc]
    · intro i g' hi
      rw [hg', List.getElem?_append] at hi
      have hbounds := h.bounds i
      grind
    · rw [hg']
      intro g' hmem
      rcases List.mem_append.mp hmem with hold | hnew
      · exact h.untouched g' (hg ▸ List.mem_append_left _ hold)
      · obtain rfl := List.mem_singleton.mp hnew
        have hlast := h.untouched g (hg ▸ List.mem_append_right _ (List.mem_singleton_self g))
        exact ⟨hlast.1, hlast.2.1, rfl⟩
  · have hx : [x].splitBy joined = [[x]] :=
      List.splitBy_of_isChain (List.cons_ne_nil x []) (List.isChain_singleton x)
    refine ⟨?_, hprevious, ?_, ?_⟩
    · rw [ht.append hjoined, ht.sequences, splitBy_append_of_not_joined hjoined, List.map_append, h.ranges,
        spans_append, hx]
      simp [spans, ConcurrentGroup.init]
    · intro i g hi
      rw [ht.append hjoined] at hi ⊢
      rw [List.getElem?_append] at hi
      have hbounds := h.bounds i
      grind [ConcurrentGroup.init]
    · rw [ht.append hjoined]
      intro g hmem
      rcases List.mem_append.mp hmem with hold | hnew
      · exact h.untouched g hold
      · obtain rfl := List.mem_singleton.mp hnew
        exact ⟨rfl, rfl, rfl⟩

theorem Takes.skipTo (ht : o.Takes o' x) (hi : i < o.groups.length) : o'.skipTo i = o.skipTo i := by
  by_cases hjoined : Joined joined o.sequences [x]
  · obtain ⟨gs, g, hg, hg'⟩ := ht.extend hjoined
    rw [Order.skipTo, Order.skipTo, hg, hg']
    rw [hg, List.length_append, List.length_singleton] at hi
    by_cases hi' : i < gs.length
    · rw [List.getElem?_append_left hi', List.getElem?_append_left hi']
    · obtain rfl : i = gs.length := by omega
      simp
  · rw [Order.skipTo, Order.skipTo, ht.append hjoined, List.getElem?_append_left hi]

/-- What ordering a part of the tree does: it appends the sequences of the part, and leaves
the groups there were for the same ones. -/
structure Grows (o o' : Order) (added : List ExecutionSequence) : Prop where
  grouped : o'.Grouped
  sequences : o'.sequences = o.sequences ++ added
  alwaysUseHooks : o'.alwaysUseHooks = o.alwaysUseHooks
  skipTo : ∀ i < o.groups.length, o'.skipTo i = o.skipTo i

theorem Grows.refl (h : o.Grouped) : o.Grows o [] :=
  ⟨h, (List.append_nil _).symm, rfl, fun _ _ => rfl⟩

theorem Takes.grows (h : o.Grouped) (ht : o.Takes o' x) : o.Grows o' [x] :=
  ⟨ht.grouped h, ht.sequences, ht.alwaysUseHooks, fun _ => ht.skipTo⟩

theorem Grows.length_le (h : o.Grouped) (hg : o.Grows o' added) :
    o.groups.length ≤ o'.groups.length := by
  rw [h.length_groups, hg.grouped.length_groups, hg.sequences]
  exact count_le_append _ _

theorem Grows.skipTo_eq_some (hg : o.Grows o' added) {i k : Nat} (hi : o.skipTo i = some k) : o'.skipTo i = some k := by
  rw [← hi]
  apply hg.skipTo
  rw [Order.skipTo, Option.map_eq_some_iff] at hi
  obtain ⟨g, hget, -⟩ := hi
  exact (List.getElem?_eq_some_iff.mp hget).choose

theorem Grows.trans {o₁ o₂ o₃ : Order} {added₁ added₂ : List ExecutionSequence} (h : o₁.Grouped)
    (h₁ : o₁.Grows o₂ added₁) (h₂ : o₂.Grows o₃ added₂) : o₁.Grows o₃ (added₁ ++ added₂) where
  grouped := h₂.grouped
  sequences := by rw [h₂.sequences, h₁.sequences, List.append_assoc]
  alwaysUseHooks := h₂.alwaysUseHooks.trans h₁.alwaysUseHooks
  skipTo i hi := (h₂.skipTo i (Nat.lt_of_lt_of_le hi (h₁.length_le h))).trans (h₁.skipTo i hi)

theorem generateAllOrder_grows (h : o.Grouped) (entries : List ExecutionEntry) :
    o.Grows (o.generateAllOrder entries).2 (entries.map hookSequence) ∧
      (o.generateAllOrder entries).2.randomize = o.randomize := by
  rw [generateAllOrder]
  induction entries generalizing o with
  | nil => exact ⟨Grows.refl h, rfl⟩
  | cons entry entries ih =>
    have hentry := (o.generateAllEntry_takes entry).grows h
    obtain ⟨hrest, hrandom⟩ := ih hentry.grouped
    exact ⟨hentry.trans h hrest, hrandom⟩

/-- The groups of hooks are one for each. -/
theorem generateAllOrder_range (h : o.Grouped) (entries : List ExecutionEntry) :
    (o.generateAllOrder entries).1 = ⟨o.groups.length, o.groups.length + entries.length⟩ := by
  have hgrows := (generateAllOrder_grows h entries).1
  have hlength := hgrows.grouped.length_groups
  rw [hgrows.sequences, count_append_hooks, ← h.length_groups] at hlength
  rw [generateAllOrder] at hlength ⊢
  rw [hlength]

/-! ### Skip targets -/

theorem setFailureSkipTo_skipTo (o : Order) (range : AllOrderResult)
    (hi : ¬ (range.start ≤ i ∧ i < range.stop)) : (o.setFailureSkipTo range).skipTo i = o.skipTo i := by
  rw [setFailureSkipTo]
  split
  · rfl
  · simp only [skipTo, List.getElem?_mapIdx, Option.map_map]
    apply congrFun
    apply congrArg
    funext g
    simp [hi]

theorem setFailureSkipTo_skipTo_within (o : Order) (range : AllOrderResult)
    (hi : range.start ≤ i ∧ i < range.stop) (hlength : i < o.groups.length) :
    (o.setFailureSkipTo range).skipTo i = some o.groups.length := by
  rw [setFailureSkipTo, if_neg (by omega)]
  simp [skipTo, hi, hlength]

theorem setFailureSkipTo_randomize (o : Order) (range : AllOrderResult) :
    (o.setFailureSkipTo range).randomize = o.randomize := by
  rw [setFailureSkipTo]
  split <;> rfl

theorem setFailureSkipTo_grouped (h : o.Grouped) (range : AllOrderResult) :
    (o.setFailureSkipTo range).Grouped := by
  rw [setFailureSkipTo]
  split
  · exact h
  · refine ⟨?_, h.previous, ?_, ?_⟩
    · rw [← h.ranges]
      apply List.ext_getElem?
      intro i
      simp only [List.getElem?_map, List.getElem?_mapIdx, Option.map_map]
      apply congrFun
      apply congrArg
      funext g
      simp only [Function.comp_apply]
      split <;> rfl
    · intro i g hi
      rw [List.getElem?_mapIdx, Option.map_eq_some_iff] at hi
      rw [List.length_mapIdx]
      obtain ⟨g', hg', rfl⟩ := hi
      have hlength := (List.getElem?_eq_some_iff.mp hg').choose
      split
      · exact ⟨hlength, Nat.le_refl _⟩
      · exact h.bounds i g' hg'
    · intro g hmem
      obtain ⟨i, hi⟩ := List.mem_iff_getElem?.mp hmem
      rw [List.getElem?_mapIdx, Option.map_eq_some_iff] at hi
      obtain ⟨g', hg', rfl⟩ := hi
      have huntouched := h.untouched g' (List.mem_of_getElem? hg')
      split <;> exact huntouched

theorem Grows.setFailureSkipTo (hg : o.Grows o' added)
    (range : AllOrderResult) (hstart : o.groups.length ≤ range.start ∨ range = .empty) :
    o.Grows (o'.setFailureSkipTo range) added where
  grouped := setFailureSkipTo_grouped hg.grouped range
  sequences := by
    rw [← hg.sequences, Order.setFailureSkipTo]
    split <;> rfl
  alwaysUseHooks := by
    rw [← hg.alwaysUseHooks, Order.setFailureSkipTo]
    split <;> rfl
  skipTo i hi := by
    rw [← hg.skipTo i hi]
    apply setFailureSkipTo_skipTo
    rcases hstart with hstart | rfl
    · omega
    · simp [AllOrderResult.empty]

end Order

/-! ### Skips -/

/-- After the sequences `base`, the groups of the `beforeAll` hooks of every scope scheduled in
`s` are left for the number of groups that there were when the scope ended. -/
def Skips (always : Bool) (o : Order) (base : List ExecutionSequence) (parents : List EachHooks)
    (s : DescribeScope) : Prop :=
  ∀ before parents' scope after, Placed always parents s before parents' scope after →
    scope.usesHooks always = true → ∀ pre hook post, scope.beforeAll = pre ++ hook :: post →
      o.skipTo (count joined (base ++ before ++ pre.map hookSequence)) = some (count joined
        (base ++ before ++ scope.beforeAll.map hookSequence ++ scope.body always parents'))

variable {always : Bool} {parents : List EachHooks} {s : DescribeScope} {o : Order} {hook : ExecutionEntry}
  {gs : List ConcurrentGroup} {n i : Nat} {g : ConcurrentGroup}

theorem Skips.mono {o o' : Order} {base added : List ExecutionSequence}
    (h : Skips always o base parents s) (hg : o.Grows o' added) : Skips always o' base parents s := by
  intro before parents' scope after hplaced huses pre hook post hsplit
  exact hg.skipTo_eq_some (h before parents' scope after hplaced huses pre hook post hsplit)

theorem Skips.setFailureSkipTo {base : List ExecutionSequence} (h : Skips always o base parents s) (range : AllOrderResult)
    (hstop : range.stop ≤ count joined base) : Skips always (o.setFailureSkipTo range) base parents s := by
  intro before parents' scope after hplaced huses pre hook post hsplit
  rw [← h before parents' scope after hplaced huses pre hook post hsplit]
  apply Order.setFailureSkipTo_skipTo
  have hle := count_le_append (r := joined) base (before ++ pre.map hookSequence)
  rw [← List.append_assoc] at hle
  omega

theorem leftOut_arrange (only : Only) (entry : TestScheduleEntry) (r : Option Prng) :
    leftOut only (entry.arrange r).1 = leftOut only entry := by
  cases entry with
  | testCallback test => rfl
  | describe scope =>
    obtain ⟨base, entries, beforeAll, beforeEach, afterEach, afterAll, failed⟩ := scope
    cases failed <;> rfl

/-- An entry was ordered as `entry`, which is how the seed arranges it. -/
structure Ordered (parents : List EachHooks) (o : Order) (arranged : TestScheduleEntry × Option Prng)
    (result : TestScheduleEntry × Order) : Prop where
  entry : result.1 = arranged.1
  randomize : result.2.randomize = arranged.2
  grows : o.Grows result.2 (arranged.1.plan o.alwaysUseHooks parents)
  skips : ∀ child, arranged.1 = .describe child → Skips o.alwaysUseHooks result.2 o.sequences parents child

structure ChildrenOrdered (parents : List EachHooks) (only : Only) (o : Order)
    (arranged : List TestScheduleEntry × Option Prng) (result : List TestScheduleEntry × Order) : Prop where
  entries : result.1 = arranged.1
  randomize : result.2.randomize = arranged.2
  grows : o.Grows result.2 (planOf o.alwaysUseHooks parents only arranged.1)
  skips : ∀ pre child post, arranged.1 = pre ++ .describe child :: post →
    leftOut only (.describe child) = false →
      Skips o.alwaysUseHooks result.2 (o.sequences ++ planOf o.alwaysUseHooks parents only pre) parents child

theorem generateChildren_ordered (parents : List EachHooks) (only : Only) (entries : List TestScheduleEntry)
    (hentries : ∀ entry ∈ entries, ∀ o : Order, o.Grouped →
      Ordered parents o (entry.arrange o.randomize) (generateOrderSub parents entry o))
    (h : o.Grouped) :
    ChildrenOrdered parents only o
      (arrangeChildren only (entries.map fun entry => (entry, entry.arrange)) o.randomize)
      (generateChildren only (entries.map fun entry => (entry, generateOrderSub parents entry)) o) := by
  induction entries generalizing o with
  | nil =>
    refine ⟨rfl, rfl, Order.Grows.refl h, ?_⟩
    intro pre child post hsplit
    simp [arrangeChildren] at hsplit
  | cons entry entries ih =>
    obtain ⟨hentry, hrest⟩ := List.forall_mem_cons.mp hentries
    by_cases hout : leftOut only entry = true
    · obtain ⟨he, hr, hg, hs⟩ := ih hrest h
      simp only [List.map_cons, generateChildren, arrangeChildren, hout, if_true]
      refine ⟨congrArg _ he, hr, ?_, ?_⟩
      · simpa [planOf, hout] using hg
      · intro pre child post hsplit htaken
        cases pre with
        | nil => simp_all
        | cons first pre =>
          simp only [List.cons_append, List.cons.injEq] at hsplit
          obtain ⟨rfl, hsplit⟩ := hsplit
          simpa [planOf, hout] using hs pre child post hsplit htaken
    · simp only [Bool.not_eq_true] at hout
      have hfirst := hentry o h
      obtain ⟨he, hr, hg, hs⟩ := ih hrest hfirst.grows.grouped
      simp only [List.map_cons, generateChildren, arrangeChildren, hout, Bool.false_eq_true, if_false]
      rw [hfirst.randomize] at he hr hg hs
      rw [hfirst.grows.alwaysUseHooks] at hg hs
      have hplan : ∀ rest, planOf o.alwaysUseHooks parents only ((entry.arrange o.randomize).1 :: rest) =
          (entry.arrange o.randomize).1.plan o.alwaysUseHooks parents ++
            planOf o.alwaysUseHooks parents only rest := by
        intro rest
        simp [planOf, leftOut_arrange, hout]
      refine ⟨?_, hr, ?_, ?_⟩
      · rw [hfirst.entry, he]
      · rw [hplan]
        exact hfirst.grows.trans h hg
      · intro pre child post hsplit htaken
        cases pre with
        | nil =>
          simp only [List.nil_append, List.cons.injEq] at hsplit
          simpa [planOf] using (hfirst.skips child hsplit.1).mono hg
        | cons first pre =>
          simp only [List.cons_append, List.cons.injEq] at hsplit
          obtain ⟨rfl, hsplit⟩ := hsplit
          rw [hplan, ← List.append_assoc, ← hfirst.grows.sequences]
          exact hs pre child post hsplit htaken

/-! ### A scope -/

namespace Order

/-- The `beforeAll` or `afterAll` hooks of a scope, if they are used. -/
def generateHooks (o : Order) (used : Bool) (hooks : List ExecutionEntry) : AllOrderResult × Order :=
  if used then o.generateAllOrder hooks else (.empty, o)

theorem generateHooks_grows {o : Order} (h : o.Grouped) (used : Bool) (hooks : List ExecutionEntry) :
    o.Grows (o.generateHooks used hooks).2 (hookSequences used hooks) := by
  cases used with
  | false => exact Grows.refl h
  | true => exact (generateAllOrder_grows h hooks).1

theorem generateHooks_randomize {o : Order} (h : o.Grouped) (used : Bool) (hooks : List ExecutionEntry) :
    (o.generateHooks used hooks).2.randomize = o.randomize := by
  cases used with
  | false => rfl
  | true => exact (generateAllOrder_grows h hooks).2

theorem generateHooks_range {o : Order} (h : o.Grouped) (used : Bool) (hooks : List ExecutionEntry) :
    (o.generateHooks used hooks).1 = .empty ∨
      (o.generateHooks used hooks).1 = ⟨o.groups.length, o.groups.length + hooks.length⟩ := by
  cases used with
  | false => exact .inl rfl
  | true => exact .inr (generateAllOrder_range h hooks)

theorem generateHooks_stop {o : Order} (h : o.Grouped) (used : Bool) (hooks : List ExecutionEntry) :
    (o.generateHooks used hooks).1.stop ≤ count joined (o.sequences ++ hookSequences used hooks) := by
  cases used with
  | false => exact Nat.zero_le _
  | true =>
    rw [generateHooks, if_pos rfl, generateAllOrder_range h, hookSequences, if_pos rfl, count_append_hooks,
      h.length_groups]

/-- The hooks of a scope behind `o`, then its body, then the target for the hooks. -/
theorem hooks_then_body {o o' : Order} {body : List ExecutionSequence} (h : o.Grouped) (used : Bool)
    (hooks : List ExecutionEntry) (hbody : (o.generateHooks used hooks).2.Grows o' body) :
    o.Grows (o'.setFailureSkipTo (o.generateHooks used hooks).1) (hookSequences used hooks ++ body) := by
  apply Grows.setFailureSkipTo ((generateHooks_grows h used hooks).trans h hbody)
  rcases generateHooks_range h used hooks with hrange | hrange
  · exact .inr hrange
  · rw [hrange]
    exact .inl (Nat.le_refl _)

end Order

theorem DescribeScope.arrange_eq (s : DescribeScope) (r : Option Prng) :
    s.arrange r =
      if s.failed then (s, r)
      else
        let taken := shuffled s.entries r
        let children := arrangeChildren s.base.only (taken.1.map fun entry => (entry, entry.arrange)) taken.2
        ({s with entries := children.1}, children.2) := by
  cases s
  simp only [DescribeScope.arrange, arrangers_eq, shuffled_map]

theorem generateOrderDescribe_eq (parents : List EachHooks) (s : DescribeScope) (o : Order) :
    generateOrderDescribe parents s o =
      if s.failed then (s, o)
      else
        let before := o.generateHooks (s.usesHooks o.alwaysUseHooks) s.beforeAll
        let taken := shuffled s.entries before.2.randomize
        let children := generateChildren s.base.only
          (taken.1.map fun entry => (entry, generateOrderSub (s.eachHooks :: parents) entry))
          {before.2 with randomize := taken.2}
        let after := (children.2.setFailureSkipTo before.1).generateHooks (s.usesHooks o.alwaysUseHooks) s.afterAll
        ({s with entries := children.1}, after.2.setFailureSkipTo after.1) := by
  cases s
  simp only [generateOrderDescribe, generators_eq, Order.shuffle_eq, shuffled_map]
  rfl

/-- The `beforeAll` hooks of a scope itself, when its body is ordered and they have their target. -/
theorem skipTo_beforeAll {o o' : Order} {body : List ExecutionSequence} (h : o.Grouped)
    {hooks pre post : List ExecutionEntry} (hsplit : hooks = pre ++ hook :: post)
    (hbody : (o.generateHooks true hooks).2.Grows o' body) :
    (o'.setFailureSkipTo (o.generateHooks true hooks).1).skipTo (count joined (o.sequences ++ pre.map hookSequence)) =
      some (count joined (o.sequences ++ hooks.map hookSequence ++ body)) := by
  have hrange : (o.generateHooks true hooks).1 = ⟨o.groups.length, o.groups.length + hooks.length⟩ :=
    Order.generateAllOrder_range h hooks
  have hgrows := Order.generateHooks_grows h true hooks
  have hlength : o'.groups.length = count joined (o.sequences ++ hooks.map hookSequence ++ body) := by
    rw [hbody.grouped.length_groups, hbody.sequences, hgrows.sequences]
    rfl
  have hle := count_le_append (r := joined) (o.sequences ++ hooks.map hookSequence) body
  rw [count_append_hooks, ← h.length_groups] at hle
  have hpre : pre.length < hooks.length := by simp [hsplit]
  rw [count_append_hooks, ← h.length_groups, ← hlength]
  apply Order.setFailureSkipTo_skipTo_within
  · rw [hrange]
    exact ⟨Nat.le_add_right _ _, Nat.add_lt_add_left hpre _⟩
  · omega

theorem generateOrderSub_describe_ordered (ih : ∀ entry ∈ s.entries, ∀ (parents : List EachHooks) (o : Order), o.Grouped →
      Ordered parents o (entry.arrange o.randomize) (generateOrderSub parents entry o))
    (parents : List EachHooks) (h : o.Grouped) :
    Ordered parents o ((TestScheduleEntry.describe s).arrange o.randomize)
      (generateOrderSub parents (.describe s) o) := by
  rw [generateOrderSub, TestScheduleEntry.arrange, generateOrderDescribe_eq, DescribeScope.arrange_eq]
  by_cases hfailed : s.failed = true
  · rw [if_pos hfailed, if_pos hfailed]
    refine ⟨rfl, rfl, ?_, ?_⟩
    · simpa [TestScheduleEntry.plan, DescribeScope.plan_eq, hfailed] using Order.Grows.refl h
    · intro child hchild
      cases hchild
      intro before parents' scope after hplaced
      cases hplaced <;> simp_all
  · rw [if_neg hfailed, if_neg hfailed]
    simp only [Order.generateHooks_randomize h]
    have hbefore := Order.generateHooks_grows h (s.usesHooks o.alwaysUseHooks) s.beforeAll
    have hchildren := generateChildren_ordered (s.eachHooks :: parents) s.base.only
      (shuffled s.entries o.randomize).1
      (fun entry he o ho => ih entry ((shuffled_perm _ _).mem_iff.mp he) _ o ho)
      (o := {(o.generateHooks (s.usesHooks o.alwaysUseHooks) s.beforeAll).2 with
        randomize := (shuffled s.entries o.randomize).2})
      ⟨hbefore.grouped.ranges, hbefore.grouped.previous, hbefore.grouped.bounds, hbefore.grouped.untouched⟩
    simp only at hchildren
    generalize arrangeChildren _ _ _ = arranged at hchildren ⊢
    generalize generateChildren _ _ _ = children at hchildren ⊢
    obtain ⟨he, hr, ⟨hgrouped, hsequences, halways, hskipTo⟩, hskips⟩ := hchildren
    simp only [hbefore.sequences, hbefore.alwaysUseHooks] at hsequences halways hskips
    have hbody : (o.generateHooks (s.usesHooks o.alwaysUseHooks) s.beforeAll).2.Grows children.2
        (planOf o.alwaysUseHooks (s.eachHooks :: parents) s.base.only arranged.1) :=
      ⟨hgrouped, by rw [hsequences, hbefore.sequences], by rw [halways, hbefore.alwaysUseHooks], hskipTo⟩
    have hthrough := Order.hooks_then_body h _ _ hbody
    have hafter := Order.hooks_then_body hthrough.grouped (s.usesHooks o.alwaysUseHooks) s.afterAll
      (Order.Grows.refl (Order.generateHooks_grows hthrough.grouped _ _).grouped)
    rw [List.append_nil] at hafter
    refine ⟨?_, ?_, ?_, ?_⟩
    · rw [he]
    · simp only [Order.setFailureSkipTo_randomize, Order.generateHooks_randomize hthrough.grouped, hr]
    · have hplan : (TestScheduleEntry.describe {s with entries := arranged.1}).plan o.alwaysUseHooks parents =
          (hookSequences (s.usesHooks o.alwaysUseHooks) s.beforeAll ++
            planOf o.alwaysUseHooks (s.eachHooks :: parents) s.base.only arranged.1) ++
            hookSequences (s.usesHooks o.alwaysUseHooks) s.afterAll := by
        rw [TestScheduleEntry.plan, DescribeScope.plan_eq, List.append_assoc]
        exact if_neg hfailed
      rw [hplan]
      exact hthrough.trans h hafter
    · intro child hchild before parents' scope after hplaced huses pre hook post hsplit
      apply hafter.skipTo_eq_some
      simp only [TestScheduleEntry.describe.injEq] at hchild
      cases hplaced with
      | here scheduled =>
        subst hchild
        have huses' : s.usesHooks o.alwaysUseHooks = true := huses
        have hskip := skipTo_beforeAll h hsplit (huses' ▸ hbody)
        simp only [List.append_nil, huses']
        exact hskip
      | inside scheduled split taken below =>
        subst hchild
        have hskip := hskips _ _ _ split taken
        have hbase := hskip.setFailureSkipTo (o.generateHooks (s.usesHooks o.alwaysUseHooks) s.beforeAll).1 ?_
        · have hall := hbase _ _ _ _ below huses pre hook post hsplit
          simp only [List.append_assoc] at hall ⊢
          exact hall
        · have hstop := Order.generateHooks_stop h (s.usesHooks o.alwaysUseHooks) s.beforeAll
          exact hstop.trans (count_le_append _ _)

/-- Ordering the tree gives the plan of the tree as the seed arranges it. -/
theorem generateOrderDescribe_ordered (s : DescribeScope) (parents : List EachHooks) (h : o.Grouped) :
    Ordered parents o ((TestScheduleEntry.describe s).arrange o.randomize)
      (generateOrderSub parents (.describe s) o) := by
  induction s using DescribeScope.induction
    (Q := fun entry => ∀ (parents : List EachHooks) (o : Order), o.Grouped →
      Ordered parents o (entry.arrange o.randomize) (generateOrderSub parents entry o)) generalizing parents o with
  | scope s ih => exact generateOrderSub_describe_ordered ih parents h
  | describe s ih parents o h => exact ih parents h
  | testCallback test parents o h =>
    have htakes := o.generateOrderTest_takes h parents test
    refine ⟨rfl, htakes.randomize, htakes.grows h, ?_⟩
    intro child hchild
    cases hchild

/-! ### The tests -/

theorem filterMap_testEntry_hooks (used : Bool) (hooks : List ExecutionEntry) :
    (hookSequences used hooks).filterMap ExecutionSequence.testEntry = [] := by
  cases used with
  | false => rfl
  | true => simp [hookSequences, hookSequence, ExecutionSequence.init]

theorem filterMap_testEntry_planOf (entries : List TestScheduleEntry) (always : Bool) (parents : List EachHooks)
    (only : Only) (hentries : ∀ entry ∈ entries,
      (entry.plan always parents).filterMap ExecutionSequence.testEntry = entry.scheduledTests) :
    (planOf always parents only entries).filterMap ExecutionSequence.testEntry =
      scheduledTestsOf only entries := by
  induction entries with
  | nil => rfl
  | cons entry entries ih =>
    obtain ⟨hentry, hrest⟩ := List.forall_mem_cons.mp hentries
    rw [planOf, scheduledTestsOf, List.filterMap_append, ih hrest]
    split
    · rfl
    · rw [hentry]

theorem filterMap_testEntry_plan (s : DescribeScope) (always : Bool) (parents : List EachHooks) :
    (s.plan always parents).filterMap ExecutionSequence.testEntry = s.scheduledTests := by
  induction s using DescribeScope.induction
    (Q := fun entry => ∀ parents, (entry.plan always parents).filterMap ExecutionSequence.testEntry =
      entry.scheduledTests) generalizing parents with
  | scope s ih =>
    rw [DescribeScope.plan_eq]
    obtain ⟨base, entries, beforeAll, beforeEach, afterEach, afterAll, failed⟩ := s
    cases failed with
    | true => rfl
    | false =>
      simp only [Bool.false_eq_true, if_false, List.filterMap_append, filterMap_testEntry_hooks,
        List.nil_append, List.append_nil]
      exact filterMap_testEntry_planOf entries always _ _ fun entry he => ih entry he _
  | describe s ih parents => exact ih parents
  | testCallback test parents => rfl

theorem scheduledTestsOf_eq (only : Only) (entries : List TestScheduleEntry) :
    scheduledTestsOf only entries =
      entries.flatMap fun entry => if leftOut only entry then [] else entry.scheduledTests := by
  induction entries with
  | nil => rfl
  | cons entry entries ih => rw [scheduledTestsOf, ih, List.flatMap_cons]

theorem scheduledTestsOf_arrangeChildren (only : Only) (entries : List TestScheduleEntry)
    (hentries : ∀ entry ∈ entries, ∀ r, (entry.arrange r).1.scheduledTests.Perm entry.scheduledTests)
    (r : Option Prng) :
    (scheduledTestsOf only
      (arrangeChildren only (entries.map fun entry => (entry, entry.arrange)) r).1).Perm
      (scheduledTestsOf only entries) := by
  induction entries generalizing r with
  | nil => exact List.Perm.refl _
  | cons entry entries ih =>
    obtain ⟨hentry, hrest⟩ := List.forall_mem_cons.mp hentries
    by_cases hout : leftOut only entry = true
    · simpa only [List.map_cons, arrangeChildren, scheduledTestsOf, hout, if_true,
        List.nil_append] using ih hrest r
    · simp only [List.map_cons, arrangeChildren, scheduledTestsOf, hout, leftOut_arrange, Bool.false_eq_true,
        if_false]
      exact (hentry r).append (ih hrest _)

/-- The seed does not change which tests are scheduled. -/
theorem scheduledTests_arrange (s : DescribeScope) (r : Option Prng) :
    (s.arrange r).1.scheduledTests.Perm s.scheduledTests := by
  induction s using DescribeScope.induction
    (Q := fun entry => ∀ r, (entry.arrange r).1.scheduledTests.Perm entry.scheduledTests) generalizing r with
  | scope s ih =>
    rw [DescribeScope.arrange_eq]
    obtain ⟨base, entries, beforeAll, beforeEach, afterEach, afterAll, failed⟩ := s
    cases failed with
    | true => exact List.Perm.refl _
    | false =>
      have htaken := shuffled_perm entries r
      have hchildren := scheduledTestsOf_arrangeChildren base.only (shuffled entries r).1
        (fun entry he => ih entry (htaken.mem_iff.mp he)) (shuffled entries r).2
      apply hchildren.trans
      rw [scheduledTestsOf_eq, DescribeScope.scheduledTests, scheduledTestsOf_eq]
      exact htaken.flatMap_right _
  | describe s ih r => exact ih r
  | testCallback test r => exact List.Perm.refl _

/-! ### The order of a file -/

namespace Collection

/-- The sequences that are before those of the root scope, and behind them. -/
def preloadedBefore (c : Collection) : List ExecutionSequence := hookSequences c.first c.hookScope.beforeAll

def preloadedAfter (c : Collection) : List ExecutionSequence := hookSequences c.last c.hookScope.afterAll

/-- The tree in the order the seed puts it in. -/
def arranged (c : Collection) : DescribeScope := (c.rootScope.arrange c.randomize).1

/-- A scope that is scheduled for the file, with the sequences before and behind it. -/
def Schedules (c : Collection) (before : List ExecutionSequence) (parents : List EachHooks) (s : DescribeScope)
    (after : List ExecutionSequence) : Prop :=
  ∃ before' after', Placed c.alwaysUseHooks [c.hookScope.eachHooks] c.arranged before' parents s after' ∧
    before = c.preloadedBefore ++ before' ∧ after = after' ++ c.preloadedAfter

end Collection

/-- Groups that cover the sequences from one position up to another, in order. -/
def Partition : Nat → List ConcurrentGroup → Nat → Prop
  | n, [], m => n = m
  | n, g :: gs, m => g.sequenceStart = n ∧ n < g.sequenceEnd ∧ Partition g.sequenceEnd gs m

/-- What is in the groups from one up to another. -/
def Order.contents (o : Order) (i j : Nat) : List ExecutionSequence :=
  ((o.groups.drop i).take (j - i)).flatMap fun g => g.sequences o.sequences

/-- The hook that stands behind the sequences `before` has a group of its own. The groups
that are skipped when it fails hold `skipped` and nothing else, and the first hook of `next`
comes then. -/
structure Order.Failing (o : Order) (before : List ExecutionSequence) (hook : ExecutionEntry)
    (skipped : List ExecutionSequence) (next : List ExecutionEntry) (i : Nat) (g : ConcurrentGroup) : Prop where
  group : o.groups[i]? = some g
  start : g.sequenceStart = before.length
  sequences : g.sequences o.sequences = [hookSequence hook]
  skips : o.contents (i + 1) g.failureSkipTo = skipped
  fails : ∀ (run : List ExecutionSequence) (s : ExecutionSequence), run[before.length]? = some s →
    s.result.isFail = true → g.next i run = g.failureSkipTo
  continues : ∀ first rest, next = first :: rest →
    ∃ g', o.groups[g.failureSkipTo]? = some g' ∧ g'.sequences o.sequences = [hookSequence first]

/-- The order of a file in which a failing `beforeAll` hook skips its own scope and no more. -/
structure Order.SkipsOwnScopes (o : Order) (c : Collection) : Prop where
  partition : Partition 0 o.groups o.sequences.length
  tests : (o.sequences.filterMap ExecutionSequence.testEntry).Perm c.rootScope.scheduledTests
  bounds : ∀ (i : Nat) (g : ConcurrentGroup), o.groups[i]? = some g → i < g.failureSkipTo ∧ g.failureSkipTo ≤ o.groups.length
  skips : ∀ before parents s after, c.Schedules before parents s after → s.usesHooks c.alwaysUseHooks = true →
    ∀ pre hook post, s.beforeAll = pre ++ hook :: post →
      ∃ i g, o.Failing (before ++ pre.map hookSequence) hook
        (post.map hookSequence ++ s.body c.alwaysUseHooks parents) s.afterAll i g
  preloaded : c.first = true → ∀ pre hook post, c.hookScope.beforeAll = pre ++ hook :: post →
    ∃ i g, o.Failing (pre.map hookSequence) hook
      (post.map hookSequence ++ c.arranged.plan c.alwaysUseHooks [c.hookScope.eachHooks])
      (if c.last then c.hookScope.afterAll else []) i g

theorem planOf_append (always : Bool) (parents : List EachHooks) (only : Only)
    (entries rest : List TestScheduleEntry) :
    planOf always parents only (entries ++ rest) =
      planOf always parents only entries ++ planOf always parents only rest := by
  induction entries with
  | nil => rfl
  | cons entry entries ih => rw [List.cons_append, planOf, planOf, ih, List.append_assoc]

theorem Placed.plan_eq {parents parents' : List EachHooks} {s scope : DescribeScope}
    {before after : List ExecutionSequence} (h : Placed always parents s before parents' scope after) :
    scope.failed = false ∧ s.plan always parents = before ++ (scope.plan always parents' ++ after) := by
  induction h with
  | here parents s scheduled => exact ⟨scheduled, by simp⟩
  | inside scheduled split taken below ih =>
    refine ⟨ih.1, ?_⟩
    rw [DescribeScope.plan_eq, scheduled, DescribeScope.body, split, planOf_append, planOf, taken,
      TestScheduleEntry.plan, ih.2]
    simp

/-! ### Failing hooks -/

theorem partition_of_spans {ps : List (List ExecutionSequence)}
    (h : gs.map (fun g => (g.sequenceStart, g.sequenceEnd)) = spans n ps) (hps : [] ∉ ps) :
    Partition n gs (n + ps.flatten.length) := by
  induction ps generalizing n gs with
  | nil =>
    rw [spans, List.map_eq_nil_iff] at h
    subst h
    rfl
  | cons p ps ih =>
    rw [List.mem_cons, not_or] at hps
    rw [spans, List.map_eq_cons_iff] at h
    obtain ⟨g, gs, rfl, hg, hgs⟩ := h
    obtain ⟨hstart, hend⟩ := Prod.mk.inj hg
    refine ⟨hstart, ?_, ?_⟩
    · have hpos := List.length_pos_iff.mpr (Ne.symm hps.1)
      omega
    · rw [hend, List.flatten_cons, List.length_append, ← Nat.add_assoc]
      exact ih hgs hps.2

theorem Order.Grouped.partition (h : o.Grouped) : Partition 0 o.groups o.sequences.length := by
  have hall := partition_of_spans h.ranges (List.nil_notMem_splitBy _ _)
  rwa [List.flatten_splitBy, Nat.zero_add] at hall

theorem Partition.le_start {n m : Nat} (h : Partition n gs m) (hi : gs[i]? = some g) : n ≤ g.sequenceStart := by
  induction gs generalizing n i with
  | nil => simp at hi
  | cons first gs ih =>
    obtain ⟨hstart, hend, hrest⟩ := h
    cases i with
    | zero =>
      cases hi
      exact hstart.ge
    | succ i => exact hend.le.trans (ih hrest hi)

/-- No two groups start at the same place. -/
theorem Partition.index_eq {n m : Nat} (h : Partition n gs m) {i j : Nat}
    {g g' : ConcurrentGroup} (hi : gs[i]? = some g) (hj : gs[j]? = some g')
    (hstart : g.sequenceStart = g'.sequenceStart) : i = j := by
  induction gs generalizing n i j with
  | nil => simp at hi
  | cons first gs ih =>
    obtain ⟨hfirst, hend, hrest⟩ := h
    cases i with
    | zero =>
      cases j with
      | zero => rfl
      | succ j =>
        cases hi
        have hle := hrest.le_start hj
        omega
    | succ i =>
      cases j with
      | zero =>
        cases hj
        have hle := hrest.le_start hi
        omega
      | succ j => exact congrArg _ (ih hrest hi hj)

theorem Order.Grouped.contents (h : o.Grouped) (i j : Nat) :
    o.contents i j = between joined o.sequences i j := by
  rw [Order.contents, List.flatMap_def, List.map_take, List.map_drop, h.map_sequences, between]

theorem not_joined_of_hook (hook : ExecutionEntry) (r : List ExecutionSequence) :
    ¬ Joined joined [hookSequence hook] r := by
  simp [Library.Runs.Joined, joined, concurrent_hookSequence]

/-- A hook has a group of its own. -/
theorem Order.Grouped.hook_group (h : o.Grouped) {l r : List ExecutionSequence}
    (hs : o.sequences = l ++ hookSequence hook :: r) :
    ∃ g, o.groups[count joined l]? = some g ∧ g.sequenceStart = l.length ∧ g.sequenceEnd = l.length + 1 ∧
      g.sequences o.sequences = [hookSequence hook] := by
  have hpieces : o.sequences.splitBy joined = l.splitBy joined ++ [hookSequence hook] :: r.splitBy joined := by
    rw [hs, splitBy_append_of_not_joined (not_joined_hook _ _ _), ← List.singleton_append,
      splitBy_append_of_not_joined (not_joined_of_hook _ _)]
    rfl
  have hranges := congrArg (fun l' => l'[count joined l]?) h.ranges
  have hsequences := congrArg (fun l' => l'[count joined l]?) h.map_sequences
  simp only [hpieces, spans_append, spans, count, List.getElem?_map, List.flatten_splitBy] at hranges hsequences
  rw [List.getElem?_append_right (by rw [length_spans])] at hranges
  simp only [length_spans, Nat.sub_self, List.getElem?_cons_zero, Option.map_eq_some_iff, Prod.mk.injEq,
    Nat.zero_add, List.length_singleton] at hranges
  obtain ⟨g, hg, hstart, hend⟩ := hranges
  rw [hg] at hsequences
  simp only [Option.map_some, List.getElem?_append_right (Nat.le_refl _), Nat.sub_self,
    List.getElem?_cons_zero, Option.some.injEq] at hsequences
  exact ⟨g, hg, hstart, hend, hsequences⟩

theorem Order.contents_of_getElem (o : Order) {i j : Nat} {s : ExecutionSequence}
    (hg : o.groups[i]? = some g) (hs : g.sequences o.sequences = [s]) (hij : i < j) :
    o.contents i j = s :: o.contents (i + 1) j := by
  obtain ⟨hi, rfl⟩ := List.getElem?_eq_some_iff.mp hg
  have hj : j - i = (j - (i + 1)) + 1 := by omega
  rw [Order.contents, List.drop_eq_getElem_cons hi, hj, List.take_succ_cons, List.flatMap_cons, hs]
  rfl

theorem Order.Grouped.failing_iff (h : o.Grouped) {before skipped after : List ExecutionSequence} {next : List ExecutionEntry}
    (hs : o.sequences = before ++ ((hookSequence hook :: skipped) ++ after))
    (hskip : o.skipTo (count joined before) = some (count joined (before ++ hookSequence hook :: skipped)))
    (hnext : ∀ first rest, next = first :: rest → ∃ r, after = hookSequence first :: r) :
    (∃ i g, o.Failing before hook skipped next i g) ↔ ¬ Joined joined (hookSequence hook :: skipped) after := by
  have hs' : o.sequences = before ++ hookSequence hook :: (skipped ++ after) := hs
  obtain ⟨g, hg, hstart, hend, hsequences⟩ := h.hook_group hs'
  have htarget : g.failureSkipTo = count joined (before ++ hookSequence hook :: skipped) := by
    rw [Order.skipTo, hg] at hskip
    exact Option.some.inj hskip
  have hbounds := h.bounds _ g hg
  -- what is skipped is the part from the hook's group on, without that group
  have hcontents : o.contents (count joined before) g.failureSkipTo =
      hookSequence hook :: o.contents (count joined before + 1) g.failureSkipTo :=
    o.contents_of_getElem hg hsequences hbounds.1
  have hpart := between_eq_iff (r := joined) (l := before) (m := hookSequence hook :: skipped) (s := after)
    (not_joined_hook _ _ _)
  rw [← hs, ← htarget, ← h.contents, hcontents, List.cons.injEq] at hpart
  rw [← hpart]
  constructor
  · intro ⟨i, g', hfailing⟩
    have hi := h.partition.index_eq hfailing.group hg (hfailing.start.trans hstart.symm)
    subst hi
    obtain rfl : g' = g := Option.some.inj (hfailing.group.symm.trans hg)
    exact ⟨rfl, hfailing.skips⟩
  · intro hskips
    refine ⟨_, g, hg, hstart, hsequences, hskips.2, ?_, ?_⟩
    · intro run s hrun hfail
      have hgroup : g.sequences run = [s] := by
        rw [ConcurrentGroup.sequences, hstart, hend, Nat.add_sub_cancel_left, List.take_one, List.head?_drop, hrun]
        rfl
      rw [ConcurrentGroup.next, hgroup]
      simp [hfail]
    · intro first rest hfirst
      obtain ⟨r, hr⟩ := hnext first rest hfirst
      rw [hr, ← List.append_assoc] at hs
      obtain ⟨g', hg', -, -, hsequences'⟩ := h.hook_group hs
      exact ⟨g', htarget ▸ hg', hsequences'⟩

/-! ### The order of a file -/

namespace Collection

theorem generateOrder_eq (c : Collection) :
    c.generateOrder.2 =
      let before := (Order.init c.alwaysUseHooks c.randomize).generateHooks c.first c.hookScope.beforeAll
      let o := (generateOrderSub [c.hookScope.eachHooks] (.describe c.rootScope) before.2).2
      let after := (o.setFailureSkipTo before.1).generateHooks c.last c.hookScope.afterAll
      after.2.setFailureSkipTo after.1 := rfl

/-- The sequences of a file, its groups, and what they are left for. -/
theorem generateOrder_ordered (c : Collection) :
    c.generateOrder.2.Grouped ∧
      c.generateOrder.2.sequences =
        c.preloadedBefore ++ c.arranged.plan c.alwaysUseHooks [c.hookScope.eachHooks] ++ c.preloadedAfter ∧
      Skips c.alwaysUseHooks c.generateOrder.2 c.preloadedBefore [c.hookScope.eachHooks] c.arranged ∧
      (c.first = true → ∀ pre hook post, c.hookScope.beforeAll = pre ++ hook :: post →
        c.generateOrder.2.skipTo (count joined (pre.map hookSequence)) = some (count joined
          (c.preloadedBefore ++ c.arranged.plan c.alwaysUseHooks [c.hookScope.eachHooks]))) := by
  have h := Order.grouped_init c.alwaysUseHooks c.randomize
  have hbefore := Order.generateHooks_grows h c.first c.hookScope.beforeAll
  have hroot := generateOrderDescribe_ordered c.rootScope [c.hookScope.eachHooks] hbefore.grouped
  rw [Order.generateHooks_randomize h] at hroot
  obtain ⟨-, -, hgrows, hskips⟩ := hroot
  rw [hbefore.alwaysUseHooks] at hgrows hskips
  have hthrough := Order.hooks_then_body h _ _ hgrows
  have hafter := Order.hooks_then_body hthrough.grouped c.last c.hookScope.afterAll
    (Order.Grows.refl (Order.generateHooks_grows hthrough.grouped _ _).grouped)
  rw [generateOrder_eq]
  refine ⟨hafter.grouped, ?_, ?_, ?_⟩
  · rw [hafter.sequences, hthrough.sequences, List.append_nil]
    rfl
  · have hroot := hskips c.arranged rfl
    rw [hbefore.sequences] at hroot
    have hstop := Order.generateHooks_stop h c.first c.hookScope.beforeAll
    exact (hroot.setFailureSkipTo _ hstop).mono hafter
  · intro hfirst pre hook post hsplit
    apply hafter.skipTo_eq_some
    simp only [hfirst] at hgrows ⊢
    have hskip := skipTo_beforeAll h hsplit hgrows
    rw [preloadedBefore, hfirst]
    exact hskip

/-- No scope whose `beforeAll` hooks are used ends with a concurrent test that is followed by a
concurrent test from outside of the scope. -/
def Separated (c : Collection) : Prop :=
  ∀ before parents s after, c.Schedules before parents s after → s.usesHooks c.alwaysUseHooks = true →
    s.beforeAll ≠ [] →
      ¬ Joined joined (s.beforeAll.map hookSequence ++ s.body c.alwaysUseHooks parents)
        (s.afterAll.map hookSequence ++ after)

/-- **A failing `beforeAll` hook skips its own scope and no more, iff no concurrent test comes
directly behind a concurrent test that the scope ends with.** -/
theorem failing_beforeAll_skips_own_scope (c : Collection) :
    c.generateOrder.2.SkipsOwnScopes c ↔ c.Separated := by
  obtain ⟨hgrouped, hsequences, hskips, hpreloaded⟩ := c.generateOrder_ordered
  have hscope : ∀ before parents s after, c.Schedules before parents s after →
      s.usesHooks c.alwaysUseHooks = true → ∀ pre hook post, s.beforeAll = pre ++ hook :: post →
        ((∃ i g, c.generateOrder.2.Failing (before ++ pre.map hookSequence) hook
          (post.map hookSequence ++ s.body c.alwaysUseHooks parents) s.afterAll i g) ↔
        ¬ Joined joined (s.beforeAll.map hookSequence ++ s.body c.alwaysUseHooks parents)
          (s.afterAll.map hookSequence ++ after)) := by
    intro before parents s after hschedules huses pre hook post hsplit
    obtain ⟨before', after', hplaced, rfl, rfl⟩ := hschedules
    obtain ⟨hfailed, hplan⟩ := hplaced.plan_eq
    rw [s.plan_eq, hfailed, huses, hookSequences, if_pos rfl, hookSequences, if_pos rfl] at hplan
    have hskip := hskips _ _ _ _ hplaced huses pre hook post hsplit
    have hmap : s.beforeAll.map hookSequence =
        pre.map hookSequence ++ hookSequence hook :: post.map hookSequence := by
      rw [hsplit, List.map_append, List.map_cons]
    rw [hmap] at hskip hplan ⊢
    rw [List.append_assoc (pre.map hookSequence), joined_append_left (by simp)]
    apply hgrouped.failing_iff
    · rw [hsequences, hplan]
      simp
    · rw [hskip]
      simp
    · intro first rest hfirst
      exact ⟨rest.map hookSequence ++ (after' ++ c.preloadedAfter), by simp [hfirst]⟩
  constructor
  · intro hall before parents s after hschedules huses hne
    obtain ⟨hook, post, hsplit⟩ := List.exists_cons_of_ne_nil hne
    exact (hscope before parents s after hschedules huses [] hook post hsplit).mp
      (hall.skips before parents s after hschedules huses [] hook post hsplit)
  · intro hseparated
    refine ⟨hgrouped.partition, ?_, hgrouped.bounds, ?_, ?_⟩
    · rw [hsequences, List.filterMap_append, List.filterMap_append, preloadedBefore, preloadedAfter,
        filterMap_testEntry_hooks, filterMap_testEntry_hooks, filterMap_testEntry_plan, List.nil_append,
        List.append_nil]
      exact scheduledTests_arrange _ _
    · intro before parents s after hschedules huses pre hook post hsplit
      apply (hscope before parents s after hschedules huses pre hook post hsplit).mpr
      exact hseparated before parents s after hschedules huses (by simp [hsplit])
    · intro hfirst pre hook post hsplit
      have hbefore : c.preloadedBefore =
          pre.map hookSequence ++ hookSequence hook :: post.map hookSequence := by
        rw [preloadedBefore, hfirst, hsplit, hookSequences, if_pos rfl, List.map_append, List.map_cons]
      have hskip := hpreloaded hfirst pre hook post hsplit
      rw [hbefore] at hskip hsequences
      have hs : c.generateOrder.2.sequences = pre.map hookSequence ++ ((hookSequence hook ::
          (post.map hookSequence ++ c.arranged.plan c.alwaysUseHooks [c.hookScope.eachHooks])) ++
            c.preloadedAfter) := by
        rw [hsequences]
        simp
      apply (hgrouped.failing_iff hs ?_ ?_).mpr
      · rw [preloadedAfter]
        cases c.last with
        | false => simp [Library.Runs.Joined, hookSequences]
        | true =>
          cases c.hookScope.afterAll with
          | nil => simp [Library.Runs.Joined, hookSequences]
          | cons first rest => exact not_joined_hook _ _ _
      · rw [hskip]
        simp
      · intro first rest hfirst'
        cases hlast : c.last with
        | false => simp [hlast] at hfirst'
        | true =>
          rw [hlast, if_pos rfl] at hfirst'
          exact ⟨rest.map hookSequence, by simp [preloadedAfter, hlast, hookSequences, hfirst']⟩

/-! A scope with a `beforeAll` hook and a concurrent test, and a concurrent test behind it. -/

def exampleBase (concurrent : Bool) : BaseScope := ⟨concurrent, .normal, .no, true⟩

def exampleEntry (id : Nat) (concurrent : Bool) : ExecutionEntry :=
  ⟨id, exampleBase concurrent, true, 0, false, 0, .collection, 0, 0, none⟩

def exampleScope : DescribeScope :=
  ⟨exampleBase false, [.testCallback (exampleEntry 1 true)], [exampleEntry 0 false], [], [], [], false⟩

def exampleCollection : Collection where
  rootScope :=
    ⟨exampleBase false, [.describe exampleScope, .testCallback (exampleEntry 2 true)], [], [], [], [], false⟩
  hookScope := ⟨exampleBase false, [], [], [], [], [], false⟩
  first := true
  last := true
  hasFilter := false
  randomize := none

/-- The failing hook skips the test behind its scope as well. -/
theorem failing_beforeAll_skips_next_test :
    ¬ exampleCollection.generateOrder.2.SkipsOwnScopes exampleCollection := by
  intro h
  have hentries : exampleCollection.arranged.entries =
      [] ++ .describe exampleScope :: [.testCallback (exampleEntry 2 true)] := rfl
  have hplaced : Placed exampleCollection.alwaysUseHooks [⟨[], []⟩] exampleCollection.arranged []
      [⟨[], []⟩, ⟨[], []⟩] exampleScope [testSequence [⟨[], []⟩, ⟨[], []⟩] (exampleEntry 2 true)] :=
    .inside rfl hentries rfl (.here _ exampleScope rfl)
  have hschedules : exampleCollection.Schedules [] [⟨[], []⟩, ⟨[], []⟩] exampleScope
      [testSequence [⟨[], []⟩, ⟨[], []⟩] (exampleEntry 2 true)] := ⟨[], _, hplaced, rfl, rfl⟩
  obtain ⟨i, g, hfailing⟩ := h.skips _ _ _ _ hschedules rfl [] (exampleEntry 0 false) [] rfl
  have hgroups : exampleCollection.generateOrder.2.groups = [⟨0, 1, 0, false, 1, 2⟩, ⟨1, 3, 0, false, 2, 2⟩] := rfl
  have hgroup := hfailing.group
  have hstart := hfailing.start
  have hskips := congrArg List.length hfailing.skips
  rw [hgroups] at hgroup
  match i with
  | 0 =>
    cases hgroup
    exact absurd hskips (by decide)
  | 1 =>
    cases hgroup
    exact absurd hstart (by decide)
  | i + 2 => simp at hgroup

end Collection

end Funbun.TestRunner
