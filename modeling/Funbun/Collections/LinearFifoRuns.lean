import Funbun.Collections.LinearFifoProofs

/-! Runs of the fifo, beside the list that the same calls make. -/
namespace Funbun.Collections
open Library.Ring (Position)

namespace LinearFifo
variable {α : Type} {itemSize : Nat} {f f' : LinearFifo α} {xs : List α}

/-- What a call does to a list: the items it reads, and the list behind it. A call that is not `Ok`
leaves the list as it is. -/
def Call.onList (ok : Bool) (xs : List α) : Call α → List α × List α
  | .write src => ([], if ok then xs ++ src else xs)
  | .writeItem item => ([], if ok then xs ++ [item] else xs)
  | .read size => (xs.take size, xs.drop size)
  | .readItem => (xs.take 1, xs.drop 1)
  | .discard count => ([], xs.drop count)
  | .unget src => ([], if ok then src ++ xs else xs)
  | .orderedRemoveItem offset => ([], xs.eraseIdx offset)
  | .writableWithSize _ data => ([], if ok then xs ++ data else xs)
  | .realign | .shrink _ | .ensureTotalCapacity _ | .ensureUnusedCapacity _ => ([], xs)

/-- Whether a call is `Ok`: there is the capacity, or it can be had. -/
def Call.fits (f : LinearFifo α) : Call α → Bool
  | .write src | .unget src => f.fitsUnused src.length
  | .writeItem _ => f.fitsUnused 1
  | .ensureUnusedCapacity size | .writableWithSize size _ => f.fitsUnused size
  | .ensureTotalCapacity size => f.fitsTotal size
  | _ => true

/-- The condition under which a call keeps the queue. A call that realigns contents that are wrapped has
items that fit the scratch; a dynamic buffer is shrunk to a power of two; and a buffer of no length is not
asked to wrap. -/
def Call.Fine (itemSize : Nat) (f : LinearFifo α) : Call α → Prop
  | .write src => f.AlignsUnused itemSize src.length
  | .writeItem _ => f.AlignsUnused itemSize 1
  | .discard _ => f.bufLen = 0 → f.powersOfTwo = true
  | .unget src => f.AlignsUnused itemSize src.length ∧ (f.bufLen = 0 → src ≠ [])
  | .realign => f.Aligns itemSize
  | .shrink size => f.isDynamic = true → (size = 0 ∨ isPowerOfTwo size = true) ∧ f.Aligns itemSize
  | .ensureTotalCapacity size => f.isDynamic = true → f.bufLen < size → f.Aligns itemSize
  | .ensureUnusedCapacity size | .writableWithSize size _ => f.AlignsUnused itemSize size
  | .read _ | .readItem | .orderedRemoveItem _ => True

instance : Decidable (f.Aligns itemSize) := by
  unfold Aligns
  infer_instance

instance (size : Nat) : Decidable (f.AlignsUnused itemSize size) := by
  unfold AlignsUnused
  infer_instance

instance [DecidableEq α] : (call : Call α) → Decidable (call.Fine itemSize f)
  | .write src => inferInstanceAs (Decidable (f.AlignsUnused itemSize src.length))
  | .writeItem _ => inferInstanceAs (Decidable (f.AlignsUnused itemSize 1))
  | .discard _ => inferInstanceAs (Decidable (f.bufLen = 0 → f.powersOfTwo = true))
  | .unget src => inferInstanceAs (Decidable (f.AlignsUnused itemSize src.length ∧ (f.bufLen = 0 → src ≠ [])))
  | .realign => inferInstanceAs (Decidable (f.Aligns itemSize))
  | .shrink size => inferInstanceAs
      (Decidable (f.isDynamic = true → (size = 0 ∨ isPowerOfTwo size = true) ∧ f.Aligns itemSize))
  | .ensureTotalCapacity size => inferInstanceAs
      (Decidable (f.isDynamic = true → f.bufLen < size → f.Aligns itemSize))
  | .ensureUnusedCapacity size | .writableWithSize size _ => inferInstanceAs (Decidable (f.AlignsUnused itemSize size))
  | .read _ | .readItem | .orderedRemoveItem _ => inferInstanceAs (Decidable True)

/-- The fifo holds its contents through a call, and the call gives what the list gives. -/
theorem Contains.step (h : f.Contains xs) {call : Call α} (hasserted : call.Asserted f) (hfine : call.Fine itemSize f) :
    ∃ f', f.step itemSize call = some (⟨call.fits f, (call.onList (call.fits f) xs).1.map some⟩, f') ∧
      f'.Contains (call.onList (call.fits f) xs).2 := by
  cases call with
  | write src =>
    obtain ⟨f', hstep, hcontains⟩ := h.write hfine
    exact ⟨f', by rw [LinearFifo.step, hstep]; rfl, hcontains⟩
  | writeItem item =>
    obtain ⟨f', hstep, hcontains⟩ := h.writeItem hfine
    exact ⟨f', by rw [LinearFifo.step, hstep]; rfl, hcontains⟩
  | read size =>
    obtain ⟨f', hstep, hcontains⟩ := h.read size
    exact ⟨f', by rw [LinearFifo.step, hstep]; rfl, hcontains⟩
  | readItem =>
    obtain ⟨c, f', hstep, hitem, hcontains⟩ := h.readItem
    exact ⟨f', by rw [LinearFifo.step, hstep, Option.map_some, hitem]; rfl, hcontains⟩
  | discard count =>
    obtain ⟨f', hstep, hcontains, -⟩ := h.discard hasserted hfine
    exact ⟨f', by rw [LinearFifo.step, hstep]; rfl, hcontains⟩
  | unget src =>
    obtain ⟨f', hstep, hcontains⟩ := h.unget hfine.1 hfine.2
    exact ⟨f', by rw [LinearFifo.step, hstep]; rfl, hcontains⟩
  | orderedRemoveItem offset =>
    obtain ⟨f', hstep, hcontains⟩ := h.orderedRemoveItem hasserted
    exact ⟨f', by rw [LinearFifo.step, hstep]; rfl, hcontains⟩
  | realign =>
    obtain ⟨f', hstep, hcontains, -⟩ := h.realign hfine
    exact ⟨f', by rw [LinearFifo.step, hstep]; rfl, hcontains⟩
  | shrink size =>
    obtain ⟨f', hstep, hcontains⟩ := h.shrink hasserted hfine
    exact ⟨f', by rw [LinearFifo.step, hstep]; rfl, hcontains⟩
  | ensureTotalCapacity size =>
    obtain ⟨f', hstep, hcontains, -⟩ := h.ensureTotalCapacity hfine
    exact ⟨f', by rw [LinearFifo.step, hstep]; rfl, hcontains⟩
  | ensureUnusedCapacity size =>
    obtain ⟨f', hstep, hcontains, -⟩ := h.ensureUnusedCapacity hfine
    exact ⟨f', by rw [LinearFifo.step, hstep]; rfl, hcontains⟩
  | writableWithSize size data =>
    obtain ⟨f', hstep, hcontains⟩ := h.writableWithSize hfine hasserted
    exact ⟨f', by rw [LinearFifo.step, hstep]; rfl, hcontains⟩

/-- A fifo that is new, with the list of its contents. -/
inductive Starts : LinearFifo α → List α → Prop where
  | static (n : Nat) : Starts (initStatic n) []
  | slice (buf : List α) : Starts (initSlice buf) []
  | dynamic : Starts initDynamic []

theorem Starts.contains (h : Starts f xs) : f.Contains xs := by
  have hposition : ∀ buf : List (Option α), Position buf 0 := by
    intro buf
    by_cases hbuf : buf = []
    · exact Or.inr ⟨hbuf, rfl⟩
    · exact Or.inl (List.length_pos_iff.mpr hbuf)
  cases h with
  | static n => exact ⟨.nil (hposition _), hposition _, rfl, fun hpow => Or.inr hpow⟩
  | slice buf => exact ⟨.nil (hposition _), hposition _, rfl, fun hpow => by cases hpow⟩
  | dynamic => exact ⟨.nil (hposition _), hposition _, rfl, fun _ => Or.inl rfl⟩

/-- A fifo and a list are reached by the same calls, each of which meets a condition. -/
inductive Reached (itemSize : Nat) (may : LinearFifo α → Call α → Prop) : LinearFifo α → List α → Prop where
  | start {f : LinearFifo α} {xs : List α} : Starts f xs → Reached itemSize may f xs
  | call {f f' : LinearFifo α} {xs : List α} {reply : Reply α} (call : Call α) : Reached itemSize may f xs → may f call →
      f.step itemSize call = some (reply, f') → Reached itemSize may f' (call.onList reply.ok xs).2

theorem Reached.contains (h : Reached itemSize (fun f call => call.Asserted f ∧ call.Fine itemSize f) f xs) :
    f.Contains xs := by
  induction h with
  | start hstarts => exact hstarts.contains
  | call call _ hmay hstep ih =>
    obtain ⟨f₁, hstep₁, hcontains⟩ := ih.step hmay.1 hmay.2
    rw [hstep₁, Option.some.injEq, Prod.mk.injEq] at hstep
    obtain ⟨rfl, rfl⟩ := hstep
    exact hcontains

/-- The fifo is the queue that a list is: its items are those of the list, they are no more than its buffer
takes, and every call with arguments within what it asserts has the result it has on the list. -/
def Queue (itemSize : Nat) (f : LinearFifo α) (xs : List α) (may : Call α → Prop) : Prop :=
  f.count ≤ f.bufLen ∧ (List.range f.count).map f.peekItem = xs.map (fun x => some (some x)) ∧
    ∀ call : Call α, may call →
      ∃ f', f.step itemSize call = some (⟨call.fits f, (call.onList (call.fits f) xs).1.map some⟩, f')

theorem Contains.peeked (h : f.Contains xs) : (List.range f.count).map f.peekItem = xs.map (fun x => some (some x)) := by
  refine List.ext_getElem ?_ fun i hi hi' => ?_
  · rw [List.length_map, List.length_range, List.length_map, h.count]
  · rw [List.length_map, List.length_range] at hi
    rw [List.length_map] at hi'
    rw [List.getElem_map, List.getElem_range, List.getElem_map, h.peekItem hi, List.getElem?_eq_getElem hi']

/-- In every run of calls that meet the condition, the fifo is a queue. -/
theorem queue_of_reached (h : Reached itemSize (fun f call => call.Asserted f ∧ call.Fine itemSize f) f xs) :
    f.Queue itemSize xs fun call => call.Asserted f ∧ call.Fine itemSize f := by
  have hcontains := h.contains
  refine ⟨hcontains.length_le, hcontains.peeked, fun call hmay => ?_⟩
  obtain ⟨f', hstep, -⟩ := hcontains.step hmay.1 hmay.2
  exact ⟨f', hstep⟩

/-- A buffer of three, where the contents are wrapped and an item is taken out of them. -/
theorem queue_of_reached_wrapped : (⟨.static, [some 5, some 5, some 3], 2, 2⟩ : LinearFifo Nat).Queue 8 [3, 5]
    fun call => call.Asserted ⟨.static, [some 5, some 5, some 3], 2, 2⟩ ∧
      call.Fine 8 ⟨.static, [some 5, some 5, some 3], 2, 2⟩ := by
  have hwrite : step 8 (initStatic 3) (.write [1, 2, 3]) =
      some (⟨true, []⟩, ⟨.static, [some 1, some 2, some 3], 0, 3⟩) := by decide +kernel
  have hread : step 8 ⟨.static, [some 1, some 2, some 3], 0, 3⟩ (.read 2) =
      some (⟨true, [some 1, some 2]⟩, ⟨.static, [some 1, some 2, some 3], 2, 1⟩) := by decide +kernel
  have hwrap : step 8 ⟨.static, [some 1, some 2, some 3], 2, 1⟩ (.write [4, 5]) =
      some (⟨true, []⟩, ⟨.static, [some 4, some 5, some 3], 2, 3⟩) := by decide +kernel
  have hremove : step 8 ⟨.static, [some 4, some 5, some 3], 2, 3⟩ (.orderedRemoveItem 1) =
      some (⟨true, []⟩, ⟨.static, [some 5, some 5, some 3], 2, 2⟩) := by decide +kernel
  exact queue_of_reached (.call _ (.call _ (.call _ (.call _ (.start (.static 3)) (by decide) hwrite) (by decide) hread)
    (by decide) hwrap) (by decide) hremove)

/-- A dynamic buffer that is shrunk to three items wraps by a mask that is wrong. -/
theorem queue_shrunk : ¬ ∀ (f : LinearFifo Nat) (xs : List Nat), Reached 8 (fun f call => call.Asserted f) f xs →
    f.Queue 8 xs fun call => call.Asserted f := by
  intro hqueue
  have hwrite : step 8 initDynamic (.write [1, 2, 3]) =
      some (⟨true, []⟩, ⟨.dynamic, [some 1, some 2, some 3, none], 0, 3⟩) := by decide +kernel
  have hshrink : step 8 ⟨.dynamic, [some 1, some 2, some 3, none], 0, 3⟩ (.shrink 3) =
      some (⟨true, []⟩, ⟨.dynamic, [some 1, some 2, some 3], 0, 3⟩) := by decide +kernel
  have hdiscard : step 8 ⟨.dynamic, [some 1, some 2, some 3], 0, 3⟩ (.discard 1) =
      some (⟨true, []⟩, ⟨.dynamic, [some 1, some 2, some 3], 0, 2⟩) := by decide +kernel
  have hreached : Reached 8 (fun f call => call.Asserted f)
      (⟨.dynamic, [some 1, some 2, some 3], 0, 2⟩ : LinearFifo Nat) [2, 3] :=
    .call _ (.call _ (.call _ (.start .dynamic) (by decide) hwrite) (by decide) hshrink) (by decide) hdiscard
  have hpeeked := (hqueue _ _ hreached).2.1
  revert hpeeked
  decide

end LinearFifo
end Funbun.Collections
