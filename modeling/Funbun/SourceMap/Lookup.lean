import Mathlib.Data.Prod.Lex
import Funbun.Library.Cut
import Funbun.SourceMap.Parse
import Funbun.SourceMap.InternalWindow

/-! Where a place of the generated code comes from.

A list of mappings is searched in halves. A blob finds the window in halves and reads the window: at once, through
a cache of windows that were read in part, or with a cursor that goes forward. -/
namespace Funbun.SourceMap
open Library

/-- `less_or_equal`, the mapping not behind the target -/
def SourceMapState.lessOrEqual (s : SourceMapState) (target : LineColumnOffset) : Bool :=
  s.generatedLine < target.lines || (s.generatedLine == target.lines && s.generatedColumn ≤ target.columns)

/-! ### Lists -/

/-- The same of a place, written out in `find_index_from_generated` -/
def LineColumnOffset.lessOrEqual (place target : LineColumnOffset) : Bool :=
  place.lines < target.lines || (place.lines == target.lines && place.columns ≤ target.columns)

/-- The loop of `find_index_from_generated` -/
def halve (before : Nat → Bool) (index count : Nat) : Nat :=
  if 0 < count then
    if before (index + count / 2) then halve before (index + count / 2 + 1) (count - (count / 2 + 1))
    else halve before index (count / 2)
  else index
termination_by count

def findIndexFromGenerated (lineColumnOffsets : List LineColumnOffset) (target : LineColumnOffset) : Option Nat :=
  let index := halve (fun i => (lineColumnOffsets[i]?).any fun mapping => mapping.lessOrEqual target) 0
    lineColumnOffsets.length
  if 0 < index ∧ (lineColumnOffsets[index - 1]?).any (fun mapping => mapping.lines == target.lines) then some (index - 1)
  else none

/-- `to_named` -/
def Mapping.unnamed (m : Mapping) : Mapping := {m with nameIndex := -1}

def MappingList.find (list : MappingList) (target : LineColumnOffset) : Option Mapping :=
  (findIndexFromGenerated (list.mappings.map Mapping.generated) target).bind fun i =>
    (list.mappings[i]?).map fun m => if list.withNames then m else m.unnamed

namespace Internal

/-! ### Blobs -/

section Find
variable (blob : List UInt8) (target : LineColumnOffset)

def locateWindow : Option Nat :=
  let lo := binarySearch (fun mid => (syncEntry blob mid).toState.lessOrEqual target) 0 (syncCount blob)
  if lo = 0 then none else some (lo - 1)

/-- The last mapping of the window that is not behind the target. A window has at most 64. -/
def findLoop : Nat → WindowReader → SourceMapState → SourceMapState
  | 0, _, best => best
  | n + 1, r, best =>
    if r.done then best
    else
      let (r, next) := r.next best
      if next.lessOrEqual target then findLoop n r next else best

/-- On the target's line -/
def answer (best : SourceMapState) : Option Mapping :=
  if best.generatedLine ≠ target.lines then none else some best.toMapping

def find : Option Mapping := do
  let syncIdx ← locateWindow blob target
  let (state, reader) := seedWindow blob syncIdx .dangling
  answer target (findLoop target syncInterval reader state)

end Find

/-! ### The cache -/

/-- `data` is the address of a blob, or null. -/
structure FindCacheKey where
  data : Option Nat
  syncIdx : Nat
  deriving DecidableEq

/-- The first mappings of a window, and the reader behind them -/
structure FindCacheSlot where
  data : Option Nat
  syncIdx : Nat
  decoded : List SourceMapState
  reader : WindowReader

structure FindCache where
  keys : List FindCacheKey
  slots : List FindCacheSlot
  nextVictim : Nat

namespace FindCache

def slotCount : Nat := 16

def empty : FindCache := ⟨.replicate slotCount ⟨none, 0⟩, .replicate slotCount ⟨none, 0, [], .dangling⟩, 0⟩

/-- Keys and slots are gone through side by side. -/
def clear (set : FindCache) (gone : Option Nat → Bool) : FindCache :=
  let slots := List.zipWith (fun k s => if gone k.data then {s with data := none} else s) set.keys set.slots
  {set with keys := set.keys.map fun k => if gone k.data then {k with data := none} else k, slots}

def invalidate (set : FindCache) (data : Nat) : FindCache := set.clear (· == some data)

def invalidateAll (set : FindCache) : FindCache := set.clear fun _ => true

def slotFor (set : FindCache) (data syncIdx : Nat) : FindCache × Nat :=
  match set.keys.findIdx? (· == ⟨some data, syncIdx⟩) with
  | some i => (set, i)
  | none =>
    match set.keys.findIdx? (·.data == none) with
    | some i => ({set with keys := set.keys.set i ⟨some data, syncIdx⟩}, i)
    | none =>
      let v := set.nextVictim
      ({set with keys := set.keys.set v ⟨some data, syncIdx⟩, nextVictim := (v + 1) &&& (slotCount - 1)}, v)

end FindCache

section FindWithCache
variable (target : LineColumnOffset)

/-- Decoding goes on up to the first mapping behind the target. -/
def decodeMore : Nat → WindowReader → SourceMapState → List SourceMapState → WindowReader × List SourceMapState
  | 0, r, _, decoded => (r, decoded)
  | n + 1, r, state, decoded =>
    if r.done = false ∧ state.lessOrEqual target then
      let (r, next) := r.next state
      decodeMore n r next (decoded ++ [next])
    else (r, decoded)

/-- The slot is filled anew when it is another window's. -/
def FindCacheSlot.seed (cache : FindCacheSlot) (blob : List UInt8) (data syncIdx : Nat) : FindCacheSlot :=
  if cache.data ≠ some data ∨ cache.syncIdx ≠ syncIdx ∨ cache.decoded.length = 0 then
    let (state, reader) := seedWindow blob syncIdx cache.reader
    ⟨some data, syncIdx, [state], reader⟩
  else cache

def FindCacheSlot.decode (cache : FindCacheSlot) : FindCacheSlot :=
  let (reader, decoded) := decodeMore target syncInterval cache.reader (cache.decoded.getLastD .zero) cache.decoded
  {cache with reader, decoded}

def FindCacheSlot.search (cache : FindCacheSlot) : Option Mapping :=
  let lo := binarySearch (fun mid => (cache.decoded[mid]?).any (·.lessOrEqual target)) 0 cache.decoded.length
  if lo = 0 then none else (cache.decoded[lo - 1]?).bind (answer target)

/-- The blob at an address -/
def findWithCache (blobs : Nat → List UInt8) (data : Nat) (set : FindCache) : FindCache × Option Mapping :=
  match locateWindow (blobs data) target with
  | none => (set, none)
  | some syncIdx =>
    let (set, i) := set.slotFor data syncIdx
    let cache := set.slots.getD i ⟨none, 0, [], .dangling⟩
    let cache := (cache.seed (blobs data) data syncIdx).decode target
    ({set with slots := set.slots.set i cache}, cache.search target)

end FindWithCache

/-! ### The cursor -/

structure Cursor where
  map : List UInt8
  state : SourceMapState
  peek : Option SourceMapState
  reader : WindowReader
  syncIdx : Nat
  hasState : Bool

namespace Cursor

def init (map : List UInt8) : Cursor := ⟨map, .zero, none, .dangling, 0, false⟩

def advanceOne (c : Cursor) : Cursor × Option SourceMapState :=
  if c.reader.done then
    if syncCount c.map ≤ c.syncIdx + 1 then (c, none)
    else
      let (seed, reader) := seedWindow c.map (c.syncIdx + 1) c.reader
      ({c with syncIdx := c.syncIdx + 1, reader}, some seed)
  else
    let (reader, next) := c.reader.next (c.peek.getD c.state)
    ({c with reader}, some next)

def reseek (c : Cursor) (target : LineColumnOffset) : Cursor × Bool :=
  match locateWindow c.map target with
  | none => ({c with hasState := false}, false)
  | some idx =>
    let (state, reader) := seedWindow c.map idx c.reader
    ({c with syncIdx := idx, state, reader, peek := none, hasState := true}, true)

/-- The mapping that was read ahead is the current one, unless it is still behind the target. -/
def takePeek (c : Cursor) (target : LineColumnOffset) : Option Cursor :=
  match c.peek with
  | none => some c
  | some p => if p.lessOrEqual target then some {c with state := p, peek := none} else none

end Cursor

theorem WindowReader.next_count (r : WindowReader) (state : SourceMapState) : (r.next state).1.count = r.count := by
  unfold WindowReader.next WindowReader.nextLine WindowReader.nextSource
  simp only
  split_ifs <;> rfl

theorem WindowReader.next_deltaIdx (r : WindowReader) (state : SourceMapState) :
    (r.next state).1.deltaIdx = r.deltaIdx + 1 := by
  unfold WindowReader.next WindowReader.nextLine WindowReader.nextSource
  simp only
  split_ifs <;> rfl

namespace Cursor

/-- The windows behind the cursor's, and what is left of its own -/
def left (c : Cursor) : Nat ×ₗ Nat := toLex (syncCount c.map - c.syncIdx, c.reader.count - c.reader.deltaIdx)

theorem advanceOne_left {c c' : Cursor} {next : SourceMapState} (h : c.advanceOne = (c', some next)) :
    c'.left < c.left := by
  unfold advanceOne at h
  split_ifs at h with hdone hlast
  · cases congrArg Prod.snd h
  · have hc : _ = c' := congrArg Prod.fst h
    rw [← hc]
    exact Prod.Lex.toLex_lt_toLex.2 (.inl (show syncCount c.map - (c.syncIdx + 1) < syncCount c.map - c.syncIdx by omega))
  · have hcount : c.reader.deltaIdx + 1 < c.reader.count := by
      simpa [WindowReader.done] using hdone
    have hleft : (c.reader.next (c.peek.getD c.state)).1.count - (c.reader.next (c.peek.getD c.state)).1.deltaIdx <
        c.reader.count - c.reader.deltaIdx := by
      rw [WindowReader.next_count, WindowReader.next_deltaIdx]
      omega
    have hc : _ = c' := congrArg Prod.fst h
    rw [← hc]
    exact Prod.Lex.toLex_lt_toLex.2 (.inr ⟨rfl, hleft⟩)

theorem takePeek_left {c c' : Cursor} {target : LineColumnOffset} (h : c.takePeek target = some c') :
    c'.left = c.left := by
  unfold takePeek at h
  split at h
  · rw [← Option.some.inj h]
  · split_ifs at h
    rw [← Option.some.inj h]
    rfl

/-- The loop of `move_to` -/
def forward (target : LineColumnOffset) (c : Cursor) : Cursor :=
  match _hpeek : c.takePeek target with
  | none => c
  | some c₁ =>
    match _hadvance : c₁.advanceOne with
    | (c₂, none) => c₂
    | (c₂, some next) =>
      if next.lessOrEqual target then forward target {c₂ with state := next} else {c₂ with peek := some next}
termination_by c.left
decreasing_by
  rw [← takePeek_left _hpeek]
  have hleft : c₂.left < c₁.left := advanceOne_left _hadvance
  exact hleft

def moveTo (c : Cursor) (target : LineColumnOffset) : Cursor × Option Mapping :=
  let (c, found) :=
    if c.hasState = false ∨ c.state.lessOrEqual target = false then c.reseek target else (c, true)
  if found then
    let c := c.forward target
    (c, answer target c.state)
  else (c, none)

end Cursor

end Internal

end Funbun.SourceMap
