import Mathlib.Order.Lattice
import Mathlib.Data.Nat.Basic

/-! Calls that end with enough fuel. -/
namespace Funbun.Library.Fuel

variable {β γ : Type}

/-- With enough fuel the call has this result. -/
def Settles (f : Nat → Option β) (result : β) : Prop := ∃ n, ∀ fuel, n ≤ fuel → f fuel = some result

namespace Settles
variable {f : Nat → Option β} {result : β}

theorem of_forall (h : ∀ fuel, f fuel = some result) : Settles f result := ⟨0, fun fuel _ => h fuel⟩

theorem of_succ (h : Settles (fun fuel => f (fuel + 1)) result) : Settles f result := by
  obtain ⟨n, hn⟩ := h
  refine ⟨n + 1, fun fuel hfuel => ?_⟩
  obtain ⟨fuel, rfl⟩ : ∃ fuel', fuel = fuel' + 1 := ⟨fuel - 1, by omega⟩
  exact hn fuel (Nat.le_of_succ_le_succ hfuel)

theorem unique {result' : β} (h : Settles f result) (h' : Settles f result') : result = result' := by
  obtain ⟨n, hn⟩ := h
  obtain ⟨n', hn'⟩ := h'
  exact Option.some.inj ((hn _ (le_max_left n n')).symm.trans (hn' _ (le_max_right n n')))

theorem map (h : Settles f result) (g : β → γ) : Settles (fun fuel => (f fuel).map g) (g result) := by
  obtain ⟨n, hn⟩ := h
  refine ⟨n, fun fuel hfuel => ?_⟩
  dsimp only
  rw [hn fuel hfuel]
  rfl

theorem bind (h : Settles f result) {g : Nat → β → Option γ} {result' : γ}
    (h' : Settles (fun fuel => g fuel result) result') : Settles (fun fuel => (f fuel).bind (g fuel)) result' := by
  obtain ⟨n, hn⟩ := h
  obtain ⟨n', hn'⟩ := h'
  refine ⟨max n n', fun fuel hfuel => ?_⟩
  dsimp only
  rw [hn fuel (le_trans (le_max_left n n') hfuel)]
  exact hn' fuel (le_trans (le_max_right n n') hfuel)

end Settles

/-- A loop of calls that keep `I`. -/
theorem settles_foldlM {α σ : Type} {f : Nat → σ → α → Option σ} (I : σ → Prop) (as : List α)
    (step : ∀ a ∈ as, ∀ s, I s → ∃ s', Settles (fun fuel => f fuel s a) s' ∧ I s') (s : σ) (hs : I s) :
    ∃ s', Settles (fun fuel => as.foldlM (f fuel) s) s' ∧ I s' := by
  induction as generalizing s with
  | nil => exact ⟨s, .of_forall fun _ => rfl, hs⟩
  | cons a as ih =>
    obtain ⟨mid, hstep, hmid⟩ := step a List.mem_cons_self s hs
    obtain ⟨s', hrest, hs'⟩ := ih (fun b hb => step b (List.mem_cons_of_mem a hb)) mid hmid
    exact ⟨s', hstep.bind (g := fun fuel s => as.foldlM (f fuel) s) hrest, hs'⟩

/-- A loop over the numbers below `n`. Before turn `k`, `I k` holds. -/
theorem settles_foldlM_range {σ : Type} {f : Nat → σ → Nat → Option σ} {n : Nat} (I : Nat → σ → Prop)
    (step : ∀ k < n, ∀ s, I k s → ∃ s', Settles (fun fuel => f fuel s k) s' ∧ I (k + 1) s') {s : σ} (hs : I 0 s) :
    ∃ s', Settles (fun fuel => (List.range n).foldlM (f fuel) s) s' ∧ I n s' := by
  induction n with
  | zero => exact ⟨s, .of_forall fun _ => rfl, hs⟩
  | succ n ih =>
    obtain ⟨mid, hsettles, hmid⟩ := ih fun k hk => step k (hk.trans (Nat.lt_succ_self n))
    obtain ⟨s', hlast, hs'⟩ := step n (Nat.lt_succ_self n) mid hmid
    refine ⟨s', ?_, hs'⟩
    have hrun : ∀ fuel, (List.range (n + 1)).foldlM (f fuel) s =
        ((List.range n).foldlM (f fuel) s).bind fun mid => f fuel mid n := by
      intro fuel
      rw [List.range_succ, List.foldlM_append]
      simp
    rw [funext hrun]
    exact hsettles.bind hlast

end Funbun.Library.Fuel
