import Funbun.TestRunner.Schedule

/-! The order the tests of a file run in.

Hooks get a group each. A test gets one as well, unless it and the test before it are
concurrent: then it joins that test's group. When a `beforeAll` hook fails, the groups
up to the scope's first `afterAll` hook are skipped. -/
namespace Funbun.TestRunner

/-- The random numbers of a shuffle. Which they are is up to the seed. -/
structure Prng where
  next : Nat → Nat
  used : Nat

/-- A number below `lessThan`. -/
def Prng.uintLessThan (r : Prng) (lessThan : Nat) : Nat × Prng :=
  (r.next r.used % lessThan, {r with used := r.used + 1})

structure Order where
  groups : List ConcurrentGroup
  sequences : List ExecutionSequence
  previousGroupWasConcurrent : Bool
  alwaysUseHooks : Bool
  randomize : Option Prng

def Order.init (alwaysUseHooks : Bool) (randomize : Option Prng) : Order :=
  ⟨[], [], false, alwaysUseHooks, randomize⟩

/-! ### Shuffling -/

def swap {α : Type} (buf : List α) (i j : Nat) : List α :=
  match buf[i]?, buf[j]? with
  | some a, some b => (buf.set i b).set j a
  | _, _ => buf

/-- `shuffle_with_index` -/
def shuffleWithIndex {α : Type} (r : Prng) (buf : List α) : List α × Prng :=
  (List.range (buf.length - 1)).foldl (fun (buf, r) i =>
    let (offset, r) := r.uintLessThan (buf.length - i)
    (swap buf i (i + offset), r)) (buf, r)

/-- Shuffle if the randomize flag is set. -/
def Order.shuffle {α : Type} (o : Order) (buf : List α) : List α × Order :=
  match o.randomize with
  | none => (buf, o)
  | some r =>
    let (buf, r) := shuffleWithIndex r buf
    (buf, {o with randomize := some r})

/-! ### Hooks and tests -/

/-- The groups from `start` up to `stop`. -/
structure AllOrderResult where
  start : Nat
  stop : Nat

def AllOrderResult.empty : AllOrderResult := ⟨0, 0⟩

def Order.generateAllEntry (o : Order) (entry : ExecutionEntry) : Order :=
  let sequencesStart := o.sequences.length
  let sequences := o.sequences ++ [.init [{entry with failureSkipPast := none}] none 0 0]
  { o with
    sequences := sequences
    groups := o.groups ++ [.init sequencesStart sequences.length (o.groups.length + 1)]
    previousGroupWasConcurrent := false }

def Order.generateAllOrder (o : Order) (entries : List ExecutionEntry) : AllOrderResult × Order :=
  let o' := entries.foldl Order.generateAllEntry o
  (⟨o.groups.length, o'.groups.length⟩, o')

def Order.setFailureSkipTo (o : Order) (range : AllOrderResult) : Order :=
  if range.start = 0 ∧ range.stop = 0 then o
  else
    let skipTo := o.groups.length
    { o with
      groups := o.groups.mapIdx fun i group =>
        if range.start ≤ i ∧ i < range.stop then {group with failureSkipTo := skipTo} else group }

def Order.appendOrExtendConcurrentGroup (o : Order) (concurrent : Bool)
    (sequencesStart sequencesEnd : Nat) : Order :=
  let append : Order :=
    { o with
      previousGroupWasConcurrent := concurrent
      groups := o.groups ++ [.init sequencesStart sequencesEnd (o.groups.length + 1)] }
  match o.groups.getLast? with
  | some previousGroup =>
    if concurrent ∧ o.previousGroupWasConcurrent then
      match previousGroup.tryExtend sequencesStart sequencesEnd with
      | some group =>
        {o with previousGroupWasConcurrent := concurrent, groups := o.groups.dropLast ++ [group]}
      | none => append
    else append
  | none => append

/-- What a scope gives to the tests in it. -/
structure EachHooks where
  beforeEach : List ExecutionEntry
  afterEach : List ExecutionEntry

/-- A test between the hooks of the scopes around it, the innermost scope first. A hook that
fails skips past the test. -/
def testEntries (parents : List EachHooks) (test : ExecutionEntry) : List ExecutionEntry :=
  let before := (parents.map EachHooks.beforeEach).reverse.flatten
  let after := (parents.map EachHooks.afterEach).flatten
  if test.base.hasCallback then
    (before ++ [test]).map (fun e => {e with failureSkipPast := some test.id}) ++
      after.map fun e => {e with failureSkipPast := none}
  else [{test with failureSkipPast := some test.id}]

def Order.generateOrderTest (o : Order) (parents : List EachHooks) (test : ExecutionEntry) : Order :=
  let sequencesStart := o.sequences.length
  let sequences := o.sequences ++
    [.init (testEntries parents test) (some test) test.retryCount test.repeatCount]
  {o with sequences}.appendOrExtendConcurrentGroup test.base.concurrent sequencesStart sequences.length

/-! ### Scopes -/

/-- An entry of a scope that is not for this run. -/
def leftOut (scopeOnly : Only) (entry : TestScheduleEntry) : Bool :=
  scopeOnly = .contains ∧ entry.base.only = .no

/-- The entries of a scope, one after the other, each with what orders it. A shuffle below
an entry moves its entries in place. -/
def generateChildren (scopeOnly : Only) :
    List (TestScheduleEntry × (Order → TestScheduleEntry × Order)) → Order → List TestScheduleEntry × Order
  | [], o => ([], o)
  | (entry, generate) :: rest, o =>
    if leftOut scopeOnly entry then
      let (entries, o) := generateChildren scopeOnly rest o
      (entry :: entries, o)
    else
      let (entry, o) := generate o
      let (entries, o) := generateChildren scopeOnly rest o
      (entry :: entries, o)

mutual

/-- `Order::generate_order_describe`. The scope that is returned has its entries in the
order they were taken in. -/
def generateOrderDescribe (parents : List EachHooks) (current : DescribeScope) (o : Order) :
    DescribeScope × Order :=
  match current with
  | ⟨base, entries, beforeAll, beforeEach, afterEach, afterAll, failed⟩ =>
    if failed then (⟨base, entries, beforeAll, beforeEach, afterEach, afterAll, failed⟩, o)
    else
      let useHooks := o.alwaysUseHooks || base.hasCallback
      let (beforeallOrder, o) := if useHooks then o.generateAllOrder beforeAll else (.empty, o)
      let (children, o) := o.shuffle (generators (⟨beforeEach, afterEach⟩ :: parents) entries)
      let (entries, o) := generateChildren base.only children o
      let o := o.setFailureSkipTo beforeallOrder
      let (afterallOrder, o) := if useHooks then o.generateAllOrder afterAll else (.empty, o)
      let o := o.setFailureSkipTo afterallOrder
      (⟨base, entries, beforeAll, beforeEach, afterEach, afterAll, failed⟩, o)
  termination_by structural current

/-- `Order::generate_order_sub` -/
def generateOrderSub (parents : List EachHooks) (current : TestScheduleEntry) (o : Order) :
    TestScheduleEntry × Order :=
  match current with
  | .describe scope =>
    let (scope, o) := generateOrderDescribe parents scope o
    (.describe scope, o)
  | .testCallback test => (.testCallback test, o.generateOrderTest parents test)
  termination_by structural current

def generators (parents : List EachHooks) (entries : List TestScheduleEntry) :
    List (TestScheduleEntry × (Order → TestScheduleEntry × Order)) :=
  match entries with
  | [] => []
  | entry :: entries => (entry, generateOrderSub parents entry) :: generators parents entries
  termination_by structural entries

end

/-- What is ordered for a file: its own scope, and the hooks that were preloaded, which run
before the first file and after the last. -/
structure Collection where
  rootScope : DescribeScope
  hookScope : DescribeScope
  first : Bool
  last : Bool
  hasFilter : Bool
  randomize : Option Prng

def Collection.alwaysUseHooks (c : Collection) : Bool := c.rootScope.base.only = .no && !c.hasFilter

/-- The end of the collection phase in `BunTest::_advance` -/
def Collection.generateOrder (c : Collection) : DescribeScope × Order :=
  let o := Order.init c.alwaysUseHooks c.randomize
  let (beforeallOrder, o) := if c.first then o.generateAllOrder c.hookScope.beforeAll else (.empty, o)
  let (rootScope, o) :=
    generateOrderDescribe [⟨c.hookScope.beforeEach, c.hookScope.afterEach⟩] c.rootScope o
  let o := o.setFailureSkipTo beforeallOrder
  let (afterallOrder, o) := if c.last then o.generateAllOrder c.hookScope.afterAll else (.empty, o)
  let o := o.setFailureSkipTo afterallOrder
  (rootScope, o)

/-- Where `step_group` goes when the sequences of a group are done. -/
def ConcurrentGroup.next (g : ConcurrentGroup) (index : Nat) (sequences : List ExecutionSequence) : Nat :=
  if (g.sequences sequences).all fun s => s.result.isFail then g.failureSkipTo else index + 1

end Funbun.TestRunner
