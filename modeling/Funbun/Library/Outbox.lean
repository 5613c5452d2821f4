import Mathlib.Data.List.Basic

/-! What a sink took, and what waits for it.

A sink takes any number of the elements it is offered. Those it leaves wait in a queue, which is offered again. Nothing
is lost and nothing is overtaken as long as no element is offered past a queue that holds others. -/
namespace Funbun.Library

/-- What the sink took, and what waits -/
structure Outbox (α : Type) where
  taken : List α
  queue : List α

namespace Outbox
variable {α : Type}

/-- Every element, in the order in which the sink is to take them -/
def all (o : Outbox α) : List α := o.taken ++ o.queue

/-- The elements wait behind the others. -/
def push (o : Outbox α) (xs : List α) : Outbox α := {o with queue := o.queue ++ xs}

/-- The sink takes `n` elements of the queue. -/
def flush (o : Outbox α) (n : Nat) : Outbox α := ⟨o.taken ++ o.queue.take n, o.queue.drop n⟩

/-- The sink takes `n` of the elements at once, and the others wait behind the queue. -/
def offer (o : Outbox α) (xs : List α) (n : Nat) : Outbox α := ⟨o.taken ++ xs.take n, o.queue ++ xs.drop n⟩

@[simp] theorem all_push (o : Outbox α) (xs : List α) : (o.push xs).all = o.all ++ xs :=
  (List.append_assoc _ _ _).symm

@[simp] theorem all_flush (o : Outbox α) (n : Nat) : (o.flush n).all = o.all := by
  show (o.taken ++ o.queue.take n) ++ o.queue.drop n = o.taken ++ o.queue
  rw [List.append_assoc, List.take_append_drop]

/-- What is offered does not overtake an empty queue. -/
theorem all_offer {o : Outbox α} (h : o.queue = []) (xs : List α) (n : Nat) : (o.offer xs n).all = o.all ++ xs := by
  show (o.taken ++ xs.take n) ++ (o.queue ++ xs.drop n) = (o.taken ++ o.queue) ++ xs
  rw [h, List.nil_append, List.append_nil, List.append_assoc, List.take_append_drop]

theorem taken_prefix (o : Outbox α) : o.taken <+: o.all := List.prefix_append _ _

end Outbox

end Funbun.Library
