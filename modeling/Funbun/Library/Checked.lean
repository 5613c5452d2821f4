import Mathlib.Algebra.Group.Nat.Defs
import Mathlib.Data.List.Basic

/-! Programs that may stop: at an index out of range, at a number that does not fit, or for want of turns. -/
namespace Funbun.Library

inductive Fault where
  /-- An index or a slice is out of range. -/
  | index
  /-- A counter goes over or under its bounds. -/
  | overflow
  /-- A number does not fit into a narrower type. -/
  | intCast
  /-- A null pointer is followed. -/
  | null
  /-- No fault of the program: the loop was not given enough turns. -/
  | fuel
  deriving DecidableEq

abbrev Checked := Except Fault

variable {α β : Type}

/-- `&slice[start..]` -/
def sliceFrom (slice : List α) (start : Nat) : Checked (List α) :=
  if start ≤ slice.length then .ok (slice.drop start) else .error .index

/-- `slice[i]` -/
def indexAt (slice : List α) (i : Nat) : Checked α :=
  match slice[i]? with
  | some a => .ok a
  | none => .error .index

/-- `slice[start..start + bytes.len()].copy_from_slice(bytes)` -/
def writeAt (slice : List α) (start : Nat) (bytes : List α) : Checked (List α) :=
  if start + bytes.length ≤ slice.length then .ok (slice.take start ++ bytes ++ slice.drop (start + bytes.length)) else .error .index

/-- `try_from(n).expect(..)`, for a type whose numbers are at most `max` -/
def castTo (max n : Nat) : Checked Nat := if n ≤ max then .ok n else .error .intCast

theorem bind_eq_ok {ε : Type} {x : Except ε α} {f : α → Except ε β} {b : β} :
    (x >>= f) = .ok b ↔ ∃ a, x = .ok a ∧ f a = .ok b := by
  cases x with
  | error err =>
    constructor
    · intro h
      cases h
    · intro h
      obtain ⟨a, h, -⟩ := h
      cases h
  | ok a =>
    constructor
    · exact fun h => ⟨a, rfl, h⟩
    · intro h
      obtain ⟨a', h, hf⟩ := h
      cases h
      exact hf

/-- The program does not stop, and its result is as it should be. -/
def Returns (x : Checked α) (P : α → Prop) : Prop := ∃ a, x = .ok a ∧ P a

namespace Returns
variable {x : Checked α} {f : α → Checked β} {P Q : α → Prop} {R : β → Prop}

theorem ok {a : α} (h : P a) : Returns (.ok a) P := ⟨a, rfl, h⟩

theorem bind (hx : Returns x P) (hf : ∀ a, P a → Returns (f a) R) : Returns (x >>= f) R := by
  obtain ⟨a, rfl, ha⟩ := hx
  exact hf a ha

theorem mono (hx : Returns x P) (h : ∀ a, P a → Q a) : Returns x Q := by
  obtain ⟨a, rfl, ha⟩ := hx
  exact ⟨a, rfl, h a ha⟩

end Returns

variable {slice : List α} {start : Nat}

theorem sliceFrom_ok (h : start ≤ slice.length) :
    sliceFrom slice start = .ok (slice.drop start) := if_pos h

theorem sliceFrom_error (h : slice.length < start) : sliceFrom slice start = .error .index :=
  if_neg (Nat.not_le.2 h)

/-- What is written is there, and what is before and behind it stays. -/
theorem writeAt_returns {slice bytes : List α} (h : start + bytes.length ≤ slice.length) :
    Returns (writeAt slice start bytes) fun out => out.take (start + bytes.length) = slice.take start ++ bytes ∧
      out.length = slice.length ∧ ∀ m, start + bytes.length ≤ m → out.drop m = slice.drop m := by
  have hfront : (slice.take start ++ bytes).length = start + bytes.length := by
    rw [List.length_append, List.length_take, Nat.min_eq_left (Nat.le_trans (Nat.le_add_right ..) h)]
  refine ⟨_, if_pos h, List.take_left' hfront, ?_, fun m hm => ?_⟩
  · rw [List.length_append, hfront, List.length_drop, Nat.add_sub_cancel' h]
  · have hsplit : m = (slice.take start ++ bytes).length + (m - (start + bytes.length)) := by
      rw [hfront, Nat.add_sub_cancel' hm]
    rw [hsplit, List.drop_length_add_append, List.drop_drop, hfront]

theorem castTo_ok {max n : Nat} (h : n ≤ max) : castTo max n = .ok n := if_pos h

theorem mem_of_indexAt {i : Nat} {a : α} (h : indexAt slice i = .ok a) : a ∈ slice := by
  unfold indexAt at h
  split at h
  · cases h
    exact List.mem_of_getElem? ‹_›
  · cases h

theorem indexAt_ok {i : Nat} (h : i < slice.length) : indexAt slice i = .ok slice[i] := by
  unfold indexAt
  rw [List.getElem?_eq_getElem h]

end Funbun.Library
