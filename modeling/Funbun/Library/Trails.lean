import Mathlib.Data.List.Induction

/-! Steps that are labelled, and the trails of labels they leave. A label may end a round: what
follows it is the next round. -/
namespace Funbun.Library
variable {S E : Type} {step : S → E → S → Prop} {s t u : S} {es fs : List E} {e : E}

inductive Trail (step : S → E → S → Prop) (s : S) : List E → S → Prop
  | nil : Trail step s [] s
  | snoc {es : List E} {t : S} {e : E} {u : S} (trail : Trail step s es t) (last : step t e u) :
    Trail step s (es ++ [e]) u

namespace Trail

theorem single (h : step s e t) : Trail step s [e] t := Trail.nil.snoc h

theorem append (h : Trail step s es t) (h' : Trail step t fs u) : Trail step s (es ++ fs) u := by
  induction h' with
  | nil => rwa [List.append_nil]
  | snoc _ last ih =>
    rw [← List.append_assoc]
    exact ih.snoc last

theorem last (h : Trail step s (es ++ [e]) u) : ∃ t, Trail step s es t ∧ step t e u := by
  generalize hlabels : es ++ [e] = labels at h
  cases h with
  | nil => simp at hlabels
  | snoc trail last =>
    obtain ⟨rfl, hlast⟩ := List.append_inj' hlabels rfl
    cases hlast
    exact ⟨_, trail, last⟩

/-- What holds at first and is kept by every step holds at the end. -/
theorem keeps {P : List E → S → Prop} (h : Trail step s es t) (hinit : P [] s)
    (hstep : ∀ es t e u, P es t → step t e u → P (es ++ [e]) u) : P es t := by
  induction h with
  | nil => exact hinit
  | snoc trail last ih => exact hstep _ _ _ _ ih last

end Trail

/-! ### Rounds -/

/-- The labels of the rounds that have ended, without those that ended them, and of the round that has not. -/
structure Rounds (E : Type) where
  ended : List (List E)
  current : List E

def Rounds.add (ends : E → Bool) (r : Rounds E) (e : E) : Rounds E :=
  if ends e then ⟨r.ended ++ [r.current], []⟩ else ⟨r.ended, r.current ++ [e]⟩

def rounds (ends : E → Bool) (es : List E) : Rounds E := es.foldl (Rounds.add ends) ⟨[], []⟩

def Rounds.all (r : Rounds E) : List (List E) := r.ended ++ [r.current]

section Rounds
variable {ends : E → Bool}

theorem rounds_append (es : List E) (e : E) : rounds ends (es ++ [e]) = (rounds ends es).add ends e := by
  rw [rounds, List.foldl_append]
  rfl

theorem rounds_end (es : List E) (h : ends e = true) :
    rounds ends (es ++ [e]) = ⟨(rounds ends es).ended ++ [(rounds ends es).current], []⟩ := by
  rw [rounds_append, Rounds.add, if_pos h]

theorem rounds_continue (es : List E) (h : ends e = false) :
    rounds ends (es ++ [e]) = ⟨(rounds ends es).ended, (rounds ends es).current ++ [e]⟩ := by
  rw [rounds_append, Rounds.add, if_neg (by simp [h])]

/-- The rounds end one by one. -/
theorem length_ended (es : List E) : (rounds ends es).ended.length = es.countP ends := by
  induction es using List.reverseRecOn with
  | nil => rfl
  | append_singleton es e ih =>
    cases h : ends e with
    | true => simp [rounds_end es h, ih, List.countP_append, h]
    | false => simp [rounds_continue es h, ih, List.countP_append, h]

theorem flatMap_rounds {α : Type} (f : E → Option α) (hf : ∀ e, ends e = true → f e = none) (es : List E) :
    (rounds ends es).all.flatMap (List.filterMap f) = es.filterMap f := by
  induction es using List.reverseRecOn with
  | nil => rfl
  | append_singleton es e ih =>
    rw [List.filterMap_append, ← ih]
    cases h : ends e with
    | true => simp [rounds_end es h, Rounds.all, hf e h]
    | false => simp [rounds_continue es h, Rounds.all]

end Rounds

end Funbun.Library
