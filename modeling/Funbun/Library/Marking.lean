import Funbun.Library.Loop
import Mathlib.Data.Set.Lattice
import Mathlib.Data.Finset.Card
import Mathlib.Data.Finset.Filter
import Mathlib.Logic.Relation
import Mathlib.Order.Bounds.Basic

/-! Depth-first marking, as a relation between two sets of marks.

`Marked succ targets before after` says what a call owes that is started with some targets: it keeps the old marks, reaches
its targets, leaves every node it marked with all its successors marked, and marks nothing that is not forced. Nodes whose
exploration is still open are part of `before`, so recursive calls compose with no mention of a stack. -/
namespace Funbun.Library.Marking

variable {α β : Type}

/-- The sets that hold `before` and the targets and are closed behind every node
that is not in `before`. -/
def Closed (succ : α → Set α) (targets before : Set α) : Set (Set α) :=
  {t | before ⊆ t ∧ targets ⊆ t ∧ ∀ x ∈ t, x ∉ before → succ x ⊆ t}

/-- What a marking procedure owes. -/
structure Marked (succ : α → Set α) (targets before after : Set α) : Prop where
  kept : before ⊆ after
  reached : targets ⊆ after
  closed : ∀ x ∈ after, x ∉ before → succ x ⊆ after
  forced : ∀ t ∈ Closed succ targets before, after ⊆ t

variable {succ : α → Set α} {targets before middle after : Set α}

/-- The marks left are the least set that the rules allow. -/
theorem Marked.isLeast (h : Marked succ targets before after) :
    IsLeast (Closed succ targets before) after :=
  ⟨⟨h.kept, h.reached, h.closed⟩, h.forced⟩

/-- The outcome does not depend on how the walk was organised. -/
theorem Marked.unique {after' : Set α} (h : Marked succ targets before after)
    (h' : Marked succ targets before after') : after = after' :=
  h.isLeast.unique h'.isLeast

/-! ### The rules of a depth-first walk -/

theorem Marked.nothing (marks : Set α) : Marked succ ∅ marks marks where
  kept := subset_rfl
  reached := Set.empty_subset _
  closed := fun _ hx hn => absurd hx hn
  forced := fun _ ht => ht.1

variable {a : α} {γ σ : Type}

/-- A node marked before is not explored again. -/
theorem Marked.already (h : a ∈ before) : Marked succ {a} before before where
  kept := subset_rfl
  reached := Set.singleton_subset_iff.mpr h
  closed := fun _ hx hn => absurd hx hn
  forced := fun _ ht => ht.1

theorem Marked.covered (h : targets ⊆ before) : Marked succ targets before before where
  kept := subset_rfl
  reached := h
  closed := fun _ hx hn => absurd hx hn
  forced := fun _ ht => ht.1

/-- A fresh node is marked first; then its successors are the targets. -/
theorem Marked.explore (ha : a ∉ before) (h : Marked succ (succ a) (insert a before) after) : Marked succ {a} before after where
  kept := (Set.subset_insert a before).trans h.kept
  reached := Set.singleton_subset_iff.mpr (h.kept (Set.mem_insert a before))
  closed := by
    intro x hx hn
    by_cases hxa : x = a
    · rw [hxa]
      exact h.reached
    · exact h.closed x hx (fun hmem => (Set.mem_insert_iff.mp hmem).elim hxa hn)
  forced := by
    rintro t ⟨hbefore, htarget, hclosed⟩
    have hat : a ∈ t := htarget (Set.mem_singleton a)
    exact h.forced t ⟨Set.insert_subset hat hbefore, hclosed a hat ha,
      fun x hx hn => hclosed x hx (fun hmem => hn (Set.mem_insert_of_mem a hmem))⟩

/-- Two calls, one after the other. -/
theorem Marked.append {targets' : Set α} (h : Marked succ targets before middle)
    (h' : Marked succ targets' middle after) : Marked succ (targets ∪ targets') before after where
  kept := h.kept.trans h'.kept
  reached := Set.union_subset (h.reached.trans h'.kept) h'.reached
  closed := by
    intro x hx hn
    by_cases hmiddle : x ∈ middle
    · exact (h.closed x hmiddle hn).trans h'.kept
    · exact h'.closed x hx hmiddle
  forced := by
    rintro t ⟨hbefore, htargets, hclosed⟩
    have hmiddle : middle ⊆ t :=
      h.forced t ⟨hbefore, Set.subset_union_left.trans htargets, hclosed⟩
    exact h'.forced t ⟨hmiddle, Set.subset_union_right.trans htargets,
      fun x hx hn => hclosed x hx (fun hmem => hn (h.kept hmem))⟩

/-- A call is described by its targets as a set only. -/
theorem Marked.congr {targets' : Set α} (h : Marked succ targets before after)
    (ht : targets = targets') : Marked succ targets' before after := ht ▸ h

theorem Marked.foldlM (marks : σ → Set α) (f : σ → γ → Option σ) (goal : γ → Set α) (l : List γ)
    (hf : ∀ c ∈ l, ∀ s s', f s c = some s' → Marked succ (goal c) (marks s) (marks s'))
    (s s' : σ) (h : l.foldlM f s = some s') :
    Marked succ (⋃ c ∈ l, goal c) (marks s) (marks s') := by
  induction l generalizing s with
  | nil =>
    obtain rfl : s = s' := by simpa using h
    exact (Marked.nothing (marks s)).congr (by simp)
  | cons c rest ih =>
    rw [List.foldlM_cons] at h
    obtain ⟨mid, hstep, hrest⟩ := Option.bind_eq_some_iff.mp h
    have hhead := hf c (List.mem_cons_self ..) s mid hstep
    have htail := ih (fun d hd => hf d (List.mem_cons_of_mem c hd)) mid hrest
    exact (hhead.append htail).congr (by simp)

/-! ### Renaming the nodes -/

theorem Marked.map {succ' : β → Set β} (e : α ≃ β) (hsucc : ∀ a, succ' (e a) = e '' succ a)
    (h : Marked succ targets before after) :
    Marked succ' (e '' targets) (e '' before) (e '' after) where
  kept := Set.image_mono h.kept
  reached := Set.image_mono h.reached
  closed := by
    rintro _ ⟨x, hx, rfl⟩ hn
    rw [hsucc]
    exact Set.image_mono (h.closed x hx (fun hmem => hn (Set.mem_image_of_mem e hmem)))
  forced := by
    rintro t ⟨hbefore, htargets, hclosed⟩
    rw [Set.image_subset_iff]
    refine h.forced _ ⟨Set.image_subset_iff.mp hbefore, Set.image_subset_iff.mp htargets, ?_⟩
    intro x hx hn
    have := hclosed (e x) hx (fun hmem => hn (by simpa using hmem))
    rw [hsucc] at this
    exact Set.image_subset_iff.mp this

/-! ### Termination

A walk ends because every call that does anything marks one more node of a
finite set. -/

/-- The nodes still to mark. -/
noncomputable def remaining (nodes : Finset α) (marks : Set α) : Nat := by
  classical exact (nodes.filter (· ∉ marks)).card

theorem remaining_mono (nodes : Finset α) (h : before ⊆ after) :
    remaining nodes after ≤ remaining nodes before := by
  classical
  exact Finset.card_le_card fun x hx => by
    simp only [Finset.mem_filter] at hx ⊢
    exact ⟨hx.1, fun hmem => hx.2 (h hmem)⟩

/-- Marking a fresh node leaves strictly less to do. -/
theorem remaining_insert (nodes : Finset α) (ha : a ∈ nodes) (hn : a ∉ before) :
    remaining nodes (insert a before) < remaining nodes before := by
  classical
  refine Finset.card_lt_card ⟨fun x hx => ?_, fun hsub => ?_⟩
  · simp only [Finset.mem_filter, Set.mem_insert_iff, not_or] at hx ⊢
    exact ⟨hx.1, hx.2.2⟩
  · have hmem := hsub (Finset.mem_filter.mpr ⟨ha, hn⟩)
    simp at hmem

theorem remaining_le_card (nodes : Finset α) (marks : Set α) :
    remaining nodes marks ≤ nodes.card := by
  classical
  exact Finset.card_filter_le _ _

/-- Calls that leave no more to do end. -/
theorem foldlM_isSome (work : σ → Nat) (f : σ → γ → Option σ) (l : List γ) (bound : Nat)
    (hf : ∀ c ∈ l, ∀ s, work s ≤ bound → ∃ s', f s c = some s' ∧ work s' ≤ work s)
    (s : σ) (hs : work s ≤ bound) : ∃ s', l.foldlM f s = some s' ∧ work s' ≤ work s := by
  refine Loop.foldlM_returns l (fun t => work t ≤ work s) (fun c hc t ht => ?_) le_rfl
  obtain ⟨s', hstep, hle⟩ := hf c hc t (ht.trans hs)
  exact ⟨s', hstep, hle.trans ht⟩

/-! ### Calls one after the other -/

/-- What calls owe for their targets, if they owe nothing for none and together what each owes. -/
structure Sequential {σ : Type} (owes : Set α → σ → σ → Prop) : Prop where
  nothing : ∀ s, owes ∅ s s
  append : ∀ {targets targets' : Set α} {s₁ s₂ s₃ : σ}, owes targets s₁ s₂ → owes targets' s₂ s₃ →
    owes (targets ∪ targets') s₁ s₃

theorem Sequential.foldlM {owes : Set α → σ → σ → Prop} (h : Sequential owes) {f : σ → γ → Option σ}
    (goal : γ → Set α) (cs : List γ) (hf : ∀ c ∈ cs, ∀ s s', f s c = some s' → owes (goal c) s s') {s s' : σ}
    (hfold : cs.foldlM f s = some s') : owes (⋃ c ∈ cs, goal c) s s' := by
  induction cs generalizing s with
  | nil =>
    obtain rfl : s = s' := by simpa using hfold
    simpa using h.nothing s
  | cons c rest ih =>
    rw [List.foldlM_cons] at hfold
    obtain ⟨mid, hstep, hrest⟩ := Option.bind_eq_some_iff.mp hfold
    have hhead := hf c List.mem_cons_self s mid hstep
    have htail := ih (fun d hd => hf d (List.mem_cons_of_mem c hd)) hrest
    have hboth := h.append hhead htail
    simpa using hboth

/-! ### Walks that look again

A walk that may go behind a node it marked before, as one that looks for shorter ways
does, marks nothing that a closed set with its targets could be without. -/

structure Revisited (succ : α → Set α) (targets before after : Set α) : Prop where
  kept : before ⊆ after
  reached : targets ⊆ after
  closed : ∀ x ∈ after, x ∉ before → succ x ⊆ after
  within : ∀ t, before ⊆ t → targets ⊆ t → (∀ x ∈ t, succ x ⊆ t) → after ⊆ t

namespace Revisited

theorem nothing (h : targets ⊆ before) : Revisited succ targets before before where
  kept := subset_rfl
  reached := h
  closed := fun _ hx hn => absurd hx hn
  within := fun _ hbefore _ _ => hbefore

/-- A node is marked, whether it was before or not; then its successors are the targets. -/
theorem explore {a : α} (h : Revisited succ (succ a) (insert a before) after) :
    Revisited succ {a} before after where
  kept := (Set.subset_insert a before).trans h.kept
  reached := Set.singleton_subset_iff.mpr (h.kept (Set.mem_insert a before))
  closed := by
    intro x hx hn
    by_cases hxa : x = a
    · rw [hxa]
      exact h.reached
    · exact h.closed x hx fun hmem => (Set.mem_insert_iff.mp hmem).elim hxa hn
  within := by
    intro t hbefore htarget hclosed
    have hat : a ∈ t := htarget (Set.mem_singleton a)
    exact h.within t (Set.insert_subset hat hbefore) (hclosed a hat) hclosed

theorem append {targets' : Set α} (h : Revisited succ targets before middle)
    (h' : Revisited succ targets' middle after) : Revisited succ (targets ∪ targets') before after where
  kept := h.kept.trans h'.kept
  reached := Set.union_subset (h.reached.trans h'.kept) h'.reached
  closed := by
    intro x hx hn
    by_cases hmiddle : x ∈ middle
    · exact (h.closed x hmiddle hn).trans h'.kept
    · exact h'.closed x hx hmiddle
  within := by
    intro t hbefore htargets hclosed
    have hmiddle : middle ⊆ t := h.within t hbefore (Set.subset_union_left.trans htargets) hclosed
    exact h'.within t hmiddle (Set.subset_union_right.trans htargets) hclosed

/-- A whole walk marks what its target leads to. -/
theorem mem_iff {a b : α} (h : Revisited succ {a} ∅ after) :
    b ∈ after ↔ Relation.ReflTransGen (fun x y => y ∈ succ x) a b := by
  constructor
  · intro hb
    refine h.within {y | Relation.ReflTransGen (fun x y => y ∈ succ x) a y} (Set.empty_subset _) ?_ ?_ hb
    · exact Set.singleton_subset_iff.mpr .refl
    · exact fun x hx y hy => hx.tail hy
  · intro hreach
    induction hreach with
    | refl => exact h.reached (Set.mem_singleton a)
    | tail _ hstep ih => exact h.closed _ ih (Set.notMem_empty _) hstep

end Revisited

theorem Marked.revisited (h : Marked succ targets before after) : Revisited succ targets before after where
  kept := h.kept
  reached := h.reached
  closed := h.closed
  within := fun t hbefore htargets hclosed => h.forced t ⟨hbefore, htargets, fun x hx _ => hclosed x hx⟩

end Funbun.Library.Marking
