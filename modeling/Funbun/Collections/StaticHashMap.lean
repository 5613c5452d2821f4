import Funbun.Library.Probing
import Mathlib.Data.Finmap

/-! The hash map of Robin Hood: entries sorted by their hash, in a table by linear probing.

The home of an entry is given by the first bits of its hash. The table goes on for some slots behind the
last home, the overflow area, and a probe that runs past it has no result. A slot that is empty has the
greatest hash of all. -/
namespace Funbun.Collections.StaticHashMap

/-- `EMPTY_HASH`, which is `u64::MAX`. -/
def emptyHash : Nat := 2 ^ 64 - 1

structure Entry (K V : Type) where
  hash : Nat
  key : K
  value : V
  deriving DecidableEq

/-- Where a call has no result: a probe runs past the table, a capacity does not fit, `len` goes below zero,
or an index of the table that a map grows to is out of range. -/
inductive Fault where
  | probe
  | capacity
  | underflow
  | index
  deriving DecidableEq

section
variable {K V : Type}

def Entry.isEmpty (entry : Entry K V) : Bool := entry.hash == emptyHash

/-- `Entry::empty`. The key and the value are the defaults. -/
def Entry.empty [Inhabited K] [Inhabited V] : Entry K V := ⟨emptyHash, default, default⟩

def computeShift (capacity : Nat) : Nat := 63 - capacity.log2 + 1

def computeOverflow (capacity shift : Nat) : Nat := (capacity / 10 + (63 - shift + 1)) <<< 1

end

structure HashMap (K V : Type) where
  entries : List (Entry K V)
  len : Nat
  shift : Nat
  deriving DecidableEq

namespace HashMap
variable {K V : Type}

/-- `1 << (63 - shift + 1)` -/
def capacity (shift : Nat) : Nat := 1 <<< (63 - shift + 1)

/-- `init_capacity`. The capacity 1 has a shift of 64, which is out of range. -/
def initCapacity [Inhabited K] [Inhabited V] (capacity : Nat) : Except Fault (HashMap K V) :=
  let shift := computeShift capacity
  if capacity < 2 ^ 64 ∧ shift ≤ 63 then
    .ok ⟨List.replicate (capacity + computeOverflow capacity shift) Entry.empty, 0, shift⟩
  else .error .capacity

/-! ### Growing -/

/-- The loop of `grow`, from the entries that are left to the table of the new map. -/
def growLoop (shift : Nat) : List (Entry K V) → Nat → List (Entry K V) → Option (List (Entry K V))
  | [], _, table => some table
  | entry :: rest, dst, table =>
    let i := if !entry.isEmpty then entry.hash >>> shift else 0
    let dst := if i ≥ dst then i else dst
    if dst < table.length then growLoop shift rest (dst + 1) (table.set dst entry) else none

def grow [Inhabited K] [Inhabited V] (map : HashMap K V) : Except Fault (HashMap K V) :=
  let stop := capacity map.shift + computeOverflow (capacity map.shift) map.shift
  match initCapacity (K := K) (V := V) (capacity map.shift * 2) with
  | .error fault => .error fault
  | .ok new =>
    if map.entries.length < stop then .error .index
    else match growLoop new.shift (map.entries.take stop) 0 new.entries with
      | none => .error .index
      | some entries => .ok {map with entries := entries, shift := new.shift}

/-- The loop of `ensure_total_capacity`. The shift goes down with every turn, and is the fuel. -/
def ensureTotalCapacity [Inhabited K] [Inhabited V] (maxLoad : Nat) :
    Nat → HashMap K V → Nat → Except Fault (HashMap K V)
  | 0, _, _ => .error .capacity
  | fuel + 1, map, count =>
    if capacity map.shift * maxLoad ≥ 2 ^ 64 then .error .capacity
    else if count ≤ capacity map.shift * maxLoad / 100 then .ok map
    else match map.grow with
      | .error fault => .error fault
      | .ok map => ensureTotalCapacity maxLoad fuel map count

def ensureUnusedCapacity [Inhabited K] [Inhabited V] (maxLoad : Nat) (map : HashMap K V) (count : Nat) :
    Except Fault (HashMap K V) :=
  ensureTotalCapacity maxLoad map.shift map (map.len + count)

/-! ### Finding -/

/-- The slots from a hash's home on. -/
def slotsFrom (map : HashMap K V) (hash : Nat) : List (Entry K V) := map.entries.drop (hash >>> map.shift)

/-- Where the loops of `get`, `has_with_hash`, `has` and `delete` stop. -/
def stop (map : HashMap K V) (hash : Nat) : Option (Entry K V) :=
  (map.slotsFrom hash).find? fun entry => entry.hash ≥ hash

section
variable [DecidableEq K] (ctxHash : K → Nat)

def get (map : HashMap K V) (key : K) : Except Fault (Option V) :=
  match map.stop (ctxHash key) with
  | none => .error .probe
  | some entry => .ok (if entry.key ≠ key then none else some entry.value)

def hasWithHash (map : HashMap K V) (keyHash : Nat) : Bool :=
  match map.stop keyHash with
  | none => false
  | some entry => entry.hash == keyHash

def has (map : HashMap K V) (key : K) : Except Fault Bool :=
  match map.stop (ctxHash key) with
  | none => .error .probe
  | some entry => .ok (if entry.key ≠ key then false else true)

end

/-! ### Putting -/

/-- `GetOrPutResult`, with the place of `value_ptr` in the table. -/
structure GetOrPutResult where
  foundExisting : Bool
  place : Nat
  deriving DecidableEq

/-- The loop of `get_or_put_assume_capacity`, over the slots from `i` on. -/
def getOrPutLoop [DecidableEq K] (key : K) :
    Entry K V → Option Nat → Nat → List (Entry K V) → Option (GetOrPutResult × List (Entry K V))
  | _, _, _, [] => none
  | it, insertedAt, i, entry :: slots =>
    if entry.hash ≥ it.hash then
      if entry.key = key then some (⟨true, i⟩, entry :: slots)
      else if entry.isEmpty then some (⟨false, insertedAt.getD i⟩, it :: slots)
      else (getOrPutLoop key entry (some (insertedAt.getD i)) (i + 1) slots).map fun r => (r.1, it :: r.2)
    else (getOrPutLoop key it insertedAt (i + 1) slots).map fun r => (r.1, entry :: r.2)

def getOrPutAssumeCapacity [DecidableEq K] [Inhabited V] (ctxHash : K → Nat) (map : HashMap K V) (key : K) :
    Except Fault (GetOrPutResult × HashMap K V) :=
  let it : Entry K V := ⟨ctxHash key, key, default⟩
  let i := it.hash >>> map.shift
  match getOrPutLoop key it none i (map.slotsFrom it.hash) with
  | none => .error .probe
  | some (result, slots) =>
    .ok (result, {map with
      entries := map.entries.take i ++ slots
      len := if result.foundExisting then map.len else map.len + 1})

/-- A value is written through `value_ptr`. -/
def writeValue (map : HashMap K V) (place : Nat) (value : V) : HashMap K V :=
  {map with entries := map.entries.modify place fun entry => {entry with value := value}}

def put [DecidableEq K] [Inhabited K] [Inhabited V] (ctxHash : K → Nat) (maxLoad : Nat) (map : HashMap K V) (key : K)
    (value : V) : Except Fault (HashMap K V) :=
  match map.ensureUnusedCapacity maxLoad 1 with
  | .error fault => .error fault
  | .ok map =>
    match map.getOrPutAssumeCapacity ctxHash key with
    | .error fault => .error fault
    | .ok (result, map) => .ok (if result.foundExisting then map else map.writeValue result.place value)

def getOrPut [DecidableEq K] [Inhabited K] [Inhabited V] (ctxHash : K → Nat) (maxLoad : Nat) (map : HashMap K V)
    (key : K) : Except Fault (GetOrPutResult × HashMap K V) :=
  match map.ensureUnusedCapacity maxLoad 1 with
  | .error fault => .error fault
  | .ok map => map.getOrPutAssumeCapacity ctxHash key

/-! ### Deleting -/

/-- The second loop of `delete`, from the slot `i`, whose entry is taken out, to the slots behind it. -/
def backShift [Inhabited K] [Inhabited V] (shift : Nat) : Nat → List (Entry K V) → Option (List (Entry K V))
  | _, [] => none
  | i, next :: slots =>
    if i < next.hash >>> shift ∨ next.isEmpty then some (Entry.empty :: next :: slots)
    else (backShift shift (i + 1) slots).map (next :: ·)

/-- `delete`, over the slots from `i` on: the value that was there, and the slots. -/
def deleteLoop [DecidableEq K] [Inhabited K] [Inhabited V] (shift hash : Nat) (key : K) :
    Nat → List (Entry K V) → Option (Option V × List (Entry K V))
  | _, [] => none
  | i, entry :: slots =>
    if entry.hash ≥ hash then
      if entry.key ≠ key then some (none, entry :: slots)
      else (backShift shift i slots).map fun slots => (some entry.value, slots)
    else (deleteLoop shift hash key (i + 1) slots).map fun r => (r.1, entry :: r.2)

def delete [DecidableEq K] [Inhabited K] [Inhabited V] (ctxHash : K → Nat) (map : HashMap K V) (key : K) :
    Except Fault (Option V × HashMap K V) :=
  let i := ctxHash key >>> map.shift
  match deleteLoop map.shift (ctxHash key) key i (map.slotsFrom (ctxHash key)) with
  | none => .error .probe
  | some (none, _) => .ok (none, map)
  | some (some value, slots) =>
    if map.len = 0 then .error .underflow
    else .ok (some value, {map with entries := map.entries.take i ++ slots, len := map.len - 1})

def clearRetainingCapacity [Inhabited K] [Inhabited V] (map : HashMap K V) : HashMap K V :=
  {map with entries := map.entries.map fun _ => Entry.empty, len := 0}

/-! ### Calls -/

inductive Call (K V : Type) where
  | put (key : K) (value : V)
  /-- `get_or_put`, and what its caller writes through `value_ptr`, if anything. -/
  | getOrPut (key : K) (write : Option V)
  | get (key : K)
  | has (key : K)
  | hasWithHash (keyHash : Nat)
  | delete (key : K)
  | clearRetainingCapacity
  deriving DecidableEq

inductive Reply (V : Type) where
  | done
  | place (foundExisting : Bool) (value : Option V)
  | value (value : Option V)
  | answer (answer : Bool)
  deriving DecidableEq

def step [DecidableEq K] [Inhabited K] [Inhabited V] (ctxHash : K → Nat) (maxLoad : Nat) (map : HashMap K V) :
    Call K V → Except Fault (Reply V × HashMap K V)
  | .put key value => (map.put ctxHash maxLoad key value).map fun map => (.done, map)
  | .getOrPut key write => (map.getOrPut ctxHash maxLoad key).map fun r =>
      (.place r.1.foundExisting ((r.2.entries[r.1.place]?).map (·.value)),
        match write with
        | some value => r.2.writeValue r.1.place value
        | none => r.2)
  | .get key => (map.get ctxHash key).map fun value => (.value value, map)
  | .has key => (map.has ctxHash key).map fun answer => (.answer answer, map)
  | .hasWithHash keyHash => .ok (.answer (map.hasWithHash keyHash), map)
  | .delete key => (map.delete ctxHash key).map fun r => (.value r.1, r.2)
  | .clearRetainingCapacity => .ok (.done, map.clearRetainingCapacity)

end HashMap
end Funbun.Collections.StaticHashMap
