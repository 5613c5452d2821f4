import Mathlib.Algebra.Ring.Nat
import Mathlib.Data.List.Basic

/-! Symbols and the map that holds them.

A symbol that was merged into another links to it. `merge` shortens the ways that it climbs on its way back, `follow`
when it has found the end. A way that is climbed gets fuel: a ring of links would have no end. -/
namespace Funbun.Ast

inductive RefTag where
  | invalid | allocatedName | sourceContentsSlice | symbol
  deriving DecidableEq

/-- A reference, less its user bits, which no comparison looks at. -/
structure Ref where
  innerIndex : Nat
  sourceIndex : Nat
  tag : RefTag
  deriving DecidableEq

namespace Ref

/-- `Ref::NONE` -/
def none : Ref := ⟨0, 0, .invalid⟩

def isValid (ref : Ref) : Bool := ref.tag != .invalid

def isSourceContentsSlice (ref : Ref) : Bool := ref.tag == .sourceContentsSlice

def isSourceIndexNull (i : Nat) : Bool := i == 2 ^ 31 - 1

end Ref

structure Symbol where
  originalName : List UInt8
  link : Ref
  useCountEstimate : UInt32
  mustNotBeRenamed : Bool
  deriving DecidableEq

namespace Symbol

def hasLink (symbol : Symbol) : Bool := symbol.link.isValid

def mergeContentsWith (symbol old : Symbol) : Symbol :=
  let symbol := {symbol with useCountEstimate := symbol.useCountEstimate + old.useCountEstimate}
  if old.mustNotBeRenamed then {symbol with originalName := old.originalName, mustNotBeRenamed := true} else symbol

theorem link_mergeContentsWith (symbol old : Symbol) : (symbol.mergeContentsWith old).link = symbol.link := by
  unfold mergeContentsWith
  split <;> rfl

theorem useCountEstimate_mergeContentsWith (symbol old : Symbol) :
    (symbol.mergeContentsWith old).useCountEstimate = symbol.useCountEstimate + old.useCountEstimate := by
  unfold mergeContentsWith
  split <;> rfl

theorem mustNotBeRenamed_mergeContentsWith (symbol old : Symbol) :
    (symbol.mergeContentsWith old).mustNotBeRenamed = (symbol.mustNotBeRenamed || old.mustNotBeRenamed) := by
  unfold mergeContentsWith
  split
  · rename_i hold
    simp [hold]
  · rename_i hold
    simp [hold]

end Symbol

structure Map where
  symbolsForSource : List (List Symbol)
  deriving DecidableEq

namespace Map

/-- The symbol at the indices of a reference; an index out of range has none. -/
def lookup (map : Map) (ref : Ref) : Option Symbol := map.symbolsForSource[ref.sourceIndex]?.bind (·[ref.innerIndex]?)

def getConst (map : Map) (ref : Ref) : Option Symbol :=
  if Ref.isSourceIndexNull ref.sourceIndex || ref.isSourceContentsSlice then none else map.lookup ref

def update (map : Map) (ref : Ref) (f : Symbol → Symbol) : Map :=
  ⟨map.symbolsForSource.modify ref.sourceIndex (·.modify ref.innerIndex f)⟩

/-- `link.set` of the symbol of a reference -/
def setLink (map : Map) (ref link : Ref) : Map := map.update ref fun symbol => {symbol with link := link}

def merge : Nat → Map → Ref → Ref → Option (Ref × Map)
  | 0, _, _, _ => none
  | fuel + 1, map, old, new =>
    if old = new then some (new, map)
    else
      (map.getConst old).bind fun oldSymbol =>
        if oldSymbol.link.isValid then
          (merge fuel map oldSymbol.link new).map fun result => (result.1, result.2.setLink old result.1)
        else
          (map.getConst new).bind fun newSymbol =>
            if newSymbol.link.isValid then
              (merge fuel map old newSymbol.link).map fun result => (result.1, result.2.setLink new result.1)
            else some (new, (map.setLink old new).update new (·.mergeContentsWith oldSymbol))

/-- The first phase of `follow`: the root above a link. -/
def findRoot : Nat → Map → Ref → Option Ref
  | 0, _, _ => none
  | fuel + 1, map, root =>
    (map.lookup root).bind fun symbol => if symbol.link.isValid then findRoot fuel map symbol.link else some root

/-- The second phase: every node on the way is linked to the root. -/
def compress : Nat → Map → Ref → Ref → Option Map
  | 0, _, _, _ => none
  | fuel + 1, map, root, link =>
    (map.lookup link).bind fun symbol =>
      if symbol.link = root ∨ symbol.link.isValid = false then some map
      else compress fuel (map.setLink link root) root symbol.link

def follow (fuel : Nat) (map : Map) (ref : Ref) : Option (Ref × Map) :=
  match map.getConst ref with
  | none => some (ref, map)
  | some symbol =>
    if symbol.link.isValid then
      (findRoot fuel map symbol.link).bind fun root =>
        if symbol.link = root then some (root, map)
        else (compress fuel (map.setLink ref root) root symbol.link).map (root, ·)
    else some (ref, map)

/-- The symbols of the map, as `follow_all` goes through them. -/
def refs (map : Map) : List Ref :=
  map.symbolsForSource.zipIdx.flatMap fun source => (List.range source.1.length).map (⟨·, source.2, .symbol⟩)

/-- One symbol of `follow_all` -/
def followLink (fuel : Nat) (map : Map) (ref : Ref) : Option Map :=
  (map.lookup ref).bind fun symbol =>
    if symbol.hasLink then (follow fuel map symbol.link).map fun result => result.2.setLink ref result.1 else some map

def followAll (fuel : Nat) (map : Map) : Option Map := map.refs.foldlM (followLink fuel) map

/-! ### Calls -/

inductive Call where
  | merge (old new : Ref)
  | follow (ref : Ref)
  | followAll

def step (fuel : Nat) (map : Map) : Call → Option Map
  | .merge old new => (map.merge fuel old new).map (·.2)
  | .follow ref => (map.follow fuel ref).map (·.2)
  | .followAll => map.followAll fuel

def run (fuel : Nat) (map : Map) (calls : List Call) : Option Map := calls.foldlM (step fuel) map

end Map
end Funbun.Ast
