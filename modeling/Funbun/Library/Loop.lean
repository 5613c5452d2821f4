import Mathlib.Data.List.Range

/-! Loops that keep an invariant and make progress.

A `Turn` keeps an invariant, moves the state up in some order of progress and reaches a
goal. If goals are not lost when the state moves up, a loop reaches the goals of all its
turns. Loops whose turns may fail have rules of their own. -/
namespace Funbun.Library.Loop
variable {σ α : Type}

structure Turn (I : σ → Prop) (R : σ → σ → Prop) (goal : σ → Prop) (f : σ → σ) : Prop where
  keeps : ∀ s, I s → I (f s)
  grows : ∀ s, I s → R s (f s)
  reaches : ∀ s, I s → goal (f s)

namespace Turn
variable {I : σ → Prop} {R : σ → σ → Prop} {goal goal₁ goal₂ : σ → Prop} {f g : σ → σ}

theorem weaken (h : Turn I R goal₁ f) (hgoal : ∀ s, I s → goal₁ s → goal₂ s) : Turn I R goal₂ f where
  keeps := h.keeps
  grows := h.grows
  reaches s hs := hgoal _ (h.keeps s hs) (h.reaches s hs)

theorem congr (h : Turn I R goal f) (heq : ∀ s, I s → g s = f s) : Turn I R goal g where
  keeps s hs := heq s hs ▸ h.keeps s hs
  grows s hs := heq s hs ▸ h.grows s hs
  reaches s hs := heq s hs ▸ h.reaches s hs

theorem skip (refl : ∀ s, R s s) : Turn I R (fun _ => True) fun s => s where
  keeps _ hs := hs
  grows s _ := refl s
  reaches _ _ := trivial

theorem comp (trans : ∀ s₁ s₂ s₃, R s₁ s₂ → R s₂ s₃ → R s₁ s₃)
    (mono : ∀ s s', R s s' → goal₁ s → goal₁ s') (hf : Turn I R goal₁ f) (hg : Turn I R goal₂ g) :
    Turn I R (fun s => goal₁ s ∧ goal₂ s) fun s => g (f s) where
  keeps s hs := hg.keeps _ (hf.keeps s hs)
  grows s hs := trans _ _ _ (hf.grows s hs) (hg.grows _ (hf.keeps s hs))
  reaches s hs := ⟨mono _ _ (hg.grows _ (hf.keeps s hs)) (hf.reaches s hs), hg.reaches _ (hf.keeps s hs)⟩

theorem foldl (refl : ∀ s, R s s) (trans : ∀ s₁ s₂ s₃, R s₁ s₂ → R s₂ s₃ → R s₁ s₃)
    {goal : α → σ → Prop} {f : σ → α → σ} (as : List α)
    (mono : ∀ a ∈ as, ∀ s s', R s s' → goal a s → goal a s')
    (h : ∀ a ∈ as, Turn I R (goal a) fun s => f s a) :
    Turn I R (fun s => ∀ a ∈ as, goal a s) fun s => as.foldl f s := by
  induction as with
  | nil => exact (skip refl).weaken fun s _ _ => List.forall_mem_nil _
  | cons a as ih =>
    have hrest := ih (fun a' ha' => mono a' (List.mem_cons_of_mem _ ha')) fun a' ha' =>
      h a' (List.mem_cons_of_mem _ ha')
    have hboth := comp trans (mono a List.mem_cons_self) (h a List.mem_cons_self) hrest
    exact hboth.weaken fun s _ hs => List.forall_mem_cons.mpr hs

end Turn

variable {s : σ} {f : σ → α → Option σ}

/-- A loop that may fail does not, if no turn does. -/
theorem foldlM_range {f : σ → Nat → Option σ} {n : Nat} (I : Nat → σ → Prop)
    (step : ∀ k < n, ∀ s, I k s → ∃ s', f s k = some s' ∧ I (k + 1) s') (hs : I 0 s) :
    ∃ s', (List.range n).foldlM f s = some s' ∧ I n s' := by
  induction n with
  | zero => exact ⟨s, rfl, hs⟩
  | succ n ih =>
    obtain ⟨s₁, h₁, hI⟩ := ih fun k hk => step k (Nat.lt_succ_of_lt hk)
    obtain ⟨s₂, h₂, hI⟩ := step n (Nat.lt_succ_self n) s₁ hI
    refine ⟨s₂, ?_, hI⟩
    rw [List.range_succ, List.foldlM_append, h₁]
    show [n].foldlM f s₁ = some s₂
    rw [List.foldlM_cons, h₂]
    rfl

/-! ### Loops whose turns may fail -/

/-- A loop over a list and the places in it. -/
theorem foldl_zipIdx {f : σ → α × Nat → σ} (as : List α) (I : Nat → σ → Prop)
    (step : ∀ k a, as[k]? = some a → ∀ s, I k s → I (k + 1) (f s (a, k))) (hs : I 0 s) :
    I as.length (as.zipIdx.foldl f s) := by
  have hrest : ∀ (bs : List α) (k : Nat) (s : σ), (∀ j, bs[j]? = as[k + j]?) → I k s →
      I (k + bs.length) ((bs.zipIdx k).foldl f s) := by
    intro bs
    induction bs with
    | nil => exact fun k s _ hs => hs
    | cons b bs ih =>
      intro k s hget hs
      rw [List.zipIdx_cons, List.foldl_cons, List.length_cons, Nat.add_comm bs.length, ← Nat.add_assoc]
      apply ih
      · intro j
        rw [Nat.add_assoc, Nat.add_comm 1, ← hget, List.getElem?_cons_succ]
      · exact step k b (hget 0).symm s hs
  have hall := hrest as 0 s (fun j => by rw [Nat.zero_add]) hs
  rwa [Nat.zero_add] at hall

/-- A loop keeps what its turns keep. -/
theorem foldlM_keeps {as : List α} (I : σ → Prop) (step : ∀ a ∈ as, ∀ s s', I s → f s a = some s' → I s') {s s' : σ} (hs : I s)
    (h : as.foldlM f s = some s') : I s' := by
  induction as generalizing s with
  | nil =>
    obtain rfl : s = s' := by simpa using h
    exact hs
  | cons a as ih =>
    rw [List.foldlM_cons] at h
    obtain ⟨mid, hstep, hrest⟩ := Option.bind_eq_some_iff.mp h
    exact ih (fun a' ha' => step a' (List.mem_cons_of_mem _ ha'))
      (step a List.mem_cons_self s mid hs hstep) hrest

/-- A loop does not fail if no turn does. -/
theorem foldlM_returns (as : List α) (I : σ → Prop) (step : ∀ a ∈ as, ∀ s, I s → ∃ s', f s a = some s' ∧ I s') (hs : I s) :
    ∃ s', as.foldlM f s = some s' ∧ I s' := by
  induction as generalizing s with
  | nil => exact ⟨s, rfl, hs⟩
  | cons a as ih =>
    obtain ⟨mid, hmid, hI⟩ := step a List.mem_cons_self s hs
    obtain ⟨s', hs', hI'⟩ := ih (fun a' ha' => step a' (List.mem_cons_of_mem _ ha')) hI
    refine ⟨s', ?_, hI'⟩
    rw [List.foldlM_cons, hmid]
    exact hs'

/-- Turns that succeed more often make a loop that does. -/
theorem foldlM_mono {f g : σ → α → Option σ} (as : List α)
    (step : ∀ a ∈ as, ∀ s s', f s a = some s' → g s a = some s') {s s' : σ}
    (h : as.foldlM f s = some s') : as.foldlM g s = some s' := by
  induction as generalizing s with
  | nil => exact h
  | cons a as ih =>
    rw [List.foldlM_cons] at h ⊢
    obtain ⟨mid, hstep, hrest⟩ := Option.bind_eq_some_iff.mp h
    apply Option.bind_eq_some_iff.mpr
    exact ⟨mid, step a List.mem_cons_self s mid hstep,
      ih (fun a' ha' => step a' (List.mem_cons_of_mem _ ha')) hrest⟩

/-- Turns that need more and more fuel all have enough with the most that one needs. -/
theorem foldlM_enough {f : Nat → σ → α → Option σ} (as : List α)
    (mono : ∀ j k, j ≤ k → ∀ a ∈ as, ∀ s s', f j s a = some s' → f k s a = some s') (I : σ → Prop)
    (step : ∀ a ∈ as, ∀ s, I s → ∃ k s', f k s a = some s' ∧ I s') (hs : I s) :
    ∃ k s', as.foldlM (f k) s = some s' ∧ I s' := by
  induction as generalizing s with
  | nil => exact ⟨0, s, rfl, hs⟩
  | cons a as ih =>
    obtain ⟨j, mid, hmid, hI⟩ := step a List.mem_cons_self s hs
    obtain ⟨k, s', hs', hI'⟩ := ih (fun j k hjk a' ha' => mono j k hjk a' (List.mem_cons_of_mem _ ha'))
      (fun a' ha' => step a' (List.mem_cons_of_mem _ ha')) hI
    refine ⟨max j k, s', ?_, hI'⟩
    rw [List.foldlM_cons, mono j _ (le_max_left j k) a List.mem_cons_self s mid hmid]
    exact foldlM_mono as (fun a' ha' => mono k _ (le_max_right j k) a' (List.mem_cons_of_mem _ ha')) hs'

/-- Two calls, each followed by another, where the same can be seen of both -/
theorem bind_map_eq {τ σ' τ' β β' : Type} {p : σ → β} {q : τ → β} {p' : σ' → β'} {q' : τ' → β'} {x : Option σ}
    {y : Option τ} {f : σ → Option σ'} {g : τ → Option τ'} (hxy : x.map p = y.map q)
    (h : ∀ s t, p s = q t → (f s).map p' = (g t).map q') : (x.bind f).map p' = (y.bind g).map q' := by
  cases x with
  | none =>
    rw [Option.map_eq_none_iff.mp hxy.symm]
    rfl
  | some s =>
    obtain ⟨t, rfl, ht⟩ := Option.map_eq_some_iff.mp hxy.symm
    exact h s t ht.symm

theorem foldlM_map_eq {τ β : Type} {g : τ → α → Option τ} (p : σ → β) (q : τ → β) (as : List α)
    (h : ∀ a ∈ as, ∀ s t, p s = q t → (f s a).map p = (g t a).map q) {t : τ} (hst : p s = q t) :
    (as.foldlM f s).map p = (as.foldlM g t).map q := by
  induction as generalizing s t with
  | nil => exact congrArg some hst
  | cons a as ih =>
    have hrest := fun s t hst => ih (fun b hb => h b (List.mem_cons_of_mem a hb)) (s := s) (t := t) hst
    exact bind_map_eq (h a List.mem_cons_self s t hst) hrest

end Funbun.Library.Loop
