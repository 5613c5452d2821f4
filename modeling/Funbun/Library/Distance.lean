import Mathlib.Data.Set.Lattice
import Mathlib.Data.Finset.Card
import Mathlib.Data.Finset.Filter
import Mathlib.Logic.Function.Basic
import Mathlib.Logic.Relation
import Mathlib.Order.Bounds.Basic

/-! Distances that a walk lowers.

A walk keeps, for every node, the length of the shortest way so far, and goes behind a node again when it came on a shorter
one. `Relaxed` says what a call owes: nothing grows, its targets get at most the length of the call, and what is behind a
node that got less is at most one step farther. It asks nothing of the nodes that are still open, so calls compose. -/
namespace Funbun.Library.Distance

variable {α : Type}

/-- `Path succ n a b`: `b` is `n` steps behind `a`. -/
inductive Path (succ : α → Set α) : Nat → α → α → Prop
  | refl (a : α) : Path succ 0 a a
  | tail {n : Nat} {a b c : α} : Path succ n a b → c ∈ succ b → Path succ (n + 1) a c

variable {succ : α → Set α}

theorem Path.head {n : Nat} {a b c : α} (hb : b ∈ succ a) (h : Path succ n b c) : Path succ (n + 1) a c := by
  induction h with
  | refl => exact .tail (.refl a) hb
  | tail _ hc ih => exact .tail (ih hb) hc

theorem exists_path_iff {a b : α} : (∃ n, Path succ n a b) ↔ Relation.ReflTransGen (fun x y => y ∈ succ x) a b := by
  constructor
  · rintro ⟨n, h⟩
    induction h with
    | refl => exact .refl
    | tail _ hc ih => exact ih.tail hc
  · intro h
    induction h with
    | refl => exact ⟨0, .refl a⟩
    | tail _ hc ih =>
      obtain ⟨n, hpath⟩ := ih
      exact ⟨n + 1, hpath.tail hc⟩

/-- The lengths of the ways from the sources. -/
def lengths (succ : α → Set α) (sources : Set α) (b : α) : Set Nat := {n | ∃ a ∈ sources, Path succ n a b}

/-- What a call owes on a way of the length `distance`. -/
structure Relaxed (succ : α → Set α) (targets : Set α) (distance : Nat) (before after : α → Nat) : Prop where
  le : ∀ x, after x ≤ before x
  reached : ∀ x ∈ targets, after x ≤ distance
  closed : ∀ x, after x < before x → ∀ y ∈ succ x, after y ≤ after x + 1
  sound : ∀ x, after x < before x → ∃ n a, a ∈ targets ∧ Path succ n a x ∧ after x = distance + n

namespace Relaxed
variable {targets : Set α} {distance : Nat} {before middle after : α → Nat}

theorem nothing (distance : Nat) (before : α → Nat) : Relaxed succ ∅ distance before before where
  le := fun _ => Nat.le_refl _
  reached := fun _ hx => absurd hx (Set.notMem_empty _)
  closed := fun _ hx => absurd hx (Nat.lt_irrefl _)
  sound := fun _ hx => absurd hx (Nat.lt_irrefl _)

/-- A node that is near already is not looked behind. -/
theorem already {a : α} (h : before a ≤ distance) : Relaxed succ {a} distance before before where
  le := fun _ => Nat.le_refl _
  reached := fun _ hx => Set.mem_singleton_iff.mp hx ▸ h
  closed := fun _ hx => absurd hx (Nat.lt_irrefl _)
  sound := fun _ hx => absurd hx (Nat.lt_irrefl _)

theorem append {targets' : Set α} (h : Relaxed succ targets distance before middle)
    (h' : Relaxed succ targets' distance middle after) : Relaxed succ (targets ∪ targets') distance before after where
  le := fun x => (h'.le x).trans (h.le x)
  reached := by
    rintro x (hx | hx)
    · exact (h'.le x).trans (h.reached x hx)
    · exact h'.reached x hx
  closed := by
    intro x hx y hy
    rcases Nat.lt_or_ge (after x) (middle x) with hlate | hearly
    · exact h'.closed x hlate y hy
    · have heq : after x = middle x := Nat.le_antisymm (h'.le x) hearly
      rw [heq] at hx ⊢
      exact (h'.le y).trans (h.closed x hx y hy)
  sound := by
    intro x hx
    rcases Nat.lt_or_ge (after x) (middle x) with hlate | hearly
    · obtain ⟨n, a, ha, hpath⟩ := h'.sound x hlate
      exact ⟨n, a, .inr ha, hpath⟩
    · have heq : after x = middle x := Nat.le_antisymm (h'.le x) hearly
      rw [heq] at hx ⊢
      obtain ⟨n, a, ha, hpath⟩ := h.sound x hx
      exact ⟨n, a, .inl ha, hpath⟩

/-- A node gets the length of the call if that is less; then what is behind it are the targets, one step farther. -/
theorem explore [DecidableEq α] {a : α}
    (h : Relaxed succ (succ a) (distance + 1) (Function.update before a (min distance (before a))) after) :
    Relaxed succ {a} distance before after := by
  have hself : Function.update before a (min distance (before a)) a = min distance (before a) := Function.update_self ..
  have hother : ∀ x, x ≠ a → Function.update before a (min distance (before a)) x = before x :=
    fun x hx => Function.update_of_ne hx ..
  have hle : ∀ x, Function.update before a (min distance (before a)) x ≤ before x := by
    intro x
    by_cases hx : x = a
    · rw [hx, hself]
      exact Nat.min_le_right _ _
    · rw [hother x hx]
  -- a node that is not lowered behind the call was lowered by it
  have hown : ∀ x, after x < before x → ¬after x < Function.update before a (min distance (before a)) x →
      x = a ∧ after a = distance := by
    intro x hx hnot
    by_cases hxa : x = a
    · subst hxa
      have := h.le x
      rw [hself] at this hnot
      exact ⟨rfl, by omega⟩
    · rw [hother x hxa] at hnot
      exact absurd hx hnot
  constructor
  · exact fun x => (h.le x).trans (hle x)
  · rintro x rfl
    have := h.le x
    rw [hself] at this
    omega
  · intro x hx y hy
    by_cases hlate : after x < Function.update before a (min distance (before a)) x
    · exact h.closed x hlate y hy
    · obtain ⟨rfl, heq⟩ := hown x hx hlate
      rw [heq]
      exact h.reached y hy
  · intro x hx
    by_cases hlate : after x < Function.update before a (min distance (before a)) x
    · obtain ⟨n, b, hb, hpath, heq⟩ := h.sound x hlate
      exact ⟨n + 1, a, Set.mem_singleton a, hpath.head hb, by omega⟩
    · obtain ⟨rfl, heq⟩ := hown x hx hlate
      exact ⟨0, x, Set.mem_singleton x, .refl x, heq⟩

/-! ### A walk from the start -/

variable {sources : Set α} {far : Nat}

/-- Nothing is farther than the shortest way to it. -/
theorem le_of_path (h : Relaxed succ sources 0 (fun _ => far) after) {n : Nat} {a b : α} (ha : a ∈ sources)
    (hpath : Path succ n a b) : after b ≤ n := by
  induction hpath with
  | refl => exact h.reached _ ha
  | @tail n a b c _ hc ih =>
    have hfar := h.le c
    rcases Nat.lt_or_ge (after b) far with hnear | hend
    · have := h.closed b hnear c hc
      have := ih ha
      omega
    · have := ih ha
      omega

end Relaxed

/-! ### Nothing is farther than there are nodes -/

/-- On a shortest way there is a node at every distance. -/
theorem exists_isLeast {sources : Set α} {n : Nat} {b : α} (h : IsLeast (lengths succ sources b) n) :
    ∀ k ≤ n, ∃ c, IsLeast (lengths succ sources c) k := by
  induction n generalizing b with
  | zero =>
    intro k hk
    obtain rfl : k = 0 := Nat.le_zero.mp hk
    exact ⟨b, h⟩
  | succ n ih =>
    intro k hk
    rcases Nat.lt_or_ge n k with hlt | hle
    · obtain rfl : k = n + 1 := Nat.le_antisymm hk hlt
      exact ⟨b, h⟩
    · obtain ⟨⟨a, ha, hpath⟩, hleast⟩ := h
      cases hpath with
      | @tail _ _ c _ hpath hb =>
        refine ih ⟨⟨a, ha, hpath⟩, ?_⟩ k hle
        rintro m ⟨a', ha', hpath'⟩
        exact Nat.le_of_succ_le_succ (hleast ⟨a', ha', .tail hpath' hb⟩)

theorem lt_card_of_isLeast {sources : Set α} {n : Nat} {b : α} (nodes : Finset α)
    (hnodes : ∀ x m, m ∈ lengths succ sources x → x ∈ nodes) (h : IsLeast (lengths succ sources b) n) :
    n < nodes.card := by
  have hnonempty : Nonempty α := ⟨b⟩
  choose! node hnode using exists_isLeast h
  apply Finset.le_card_of_inj_on_range node
  · intro k hk
    exact hnodes _ k (hnode k (Nat.le_of_lt_succ hk)).1
  · intro i hi j hj heq
    have hleast := hnode i (Nat.le_of_lt_succ hi)
    rw [heq] at hleast
    exact hleast.unique (hnode j (Nat.le_of_lt_succ hj))

section Whole
variable {sources : Set α} {far : Nat} {after : α → Nat} (h : Relaxed succ sources 0 (fun _ => far) after)
include h

/-- From the start, a walk leaves the distance of every node that it reaches. -/
theorem Relaxed.isLeast {n : Nat} {b : α} (hleast : IsLeast (lengths succ sources b) n) (hn : n < far) : after b = n := by
  obtain ⟨⟨a, ha, hpath⟩, hlower⟩ := hleast
  have hle := h.le_of_path ha hpath
  obtain ⟨m, a', ha', hpath', heq⟩ := h.sound b (Nat.lt_of_le_of_lt hle hn)
  have := hlower ⟨a', ha', hpath'⟩
  omega

/-- The others stay far. -/
theorem Relaxed.unreached {b : α} (hb : lengths succ sources b = ∅) : after b = far := by
  refine Nat.le_antisymm (h.le b) (Nat.le_of_not_lt fun hlt => ?_)
  obtain ⟨n, a, ha, hpath, -⟩ := h.sound b hlt
  exact Set.notMem_empty n (hb ▸ ⟨a, ha, hpath⟩)

end Whole

end Funbun.Library.Distance
