import Funbun.Library.Fuel
import Funbun.Library.Marking

/-! Depth-first search that stops at a goal.

A search that found nothing is a walk that marked no goal, so it composes as walks do. One that found something says
nothing of its marks. -/
namespace Funbun.Library.Search
open Marking Fuel

variable {α γ σ : Type}

/-- A loop of searches that stops at the first that finds something. -/
def untilFound (f : γ → σ → Option (Bool × σ)) : List γ → σ → Option (Bool × σ)
  | [], s => some (false, s)
  | c :: rest, s => (f c s).bind fun (found, s) => if found then some (true, s) else untilFound f rest s

/-- What a search owes that found nothing. -/
structure Missed (succ : α → Set α) (goal : α → Prop) (targets before after : Set α) : Prop where
  marked : Marked succ targets before after
  missed : ∀ x ∈ after, x ∉ before → ¬goal x

namespace Missed
variable {succ : α → Set α} {goal : α → Prop} {targets targets' before middle after : Set α}

theorem nothing (marks : Set α) : Missed succ goal ∅ marks marks where
  marked := .nothing marks
  missed _ hx hn := absurd hx hn

theorem already {a : α} (h : a ∈ before) : Missed succ goal {a} before before where
  marked := .already h
  missed _ hx hn := absurd hx hn

theorem explore {a : α} (ha : a ∉ before) (hgoal : ¬goal a) (h : Missed succ goal (succ a) (insert a before) after) :
    Missed succ goal {a} before after where
  marked := .explore ha h.marked
  missed := by
    intro x hx hn
    by_cases hxa : x = a
    · exact hxa ▸ hgoal
    · exact h.missed x hx fun hmem => (Set.mem_insert_iff.mp hmem).elim hxa hn

theorem append (h : Missed succ goal targets before middle) (h' : Missed succ goal targets' middle after) :
    Missed succ goal (targets ∪ targets') before after where
  marked := h.marked.append h'.marked
  missed := by
    intro x hx hn
    by_cases hmiddle : x ∈ middle
    · exact h.missed x hmiddle hn
    · exact h'.missed x hx hmiddle

/-- A whole search that finds nothing leads to no goal. -/
theorem not_exists {a : α} (h : Missed succ goal {a} ∅ after) :
    ¬∃ b, Relation.ReflTransGen (fun x y => y ∈ succ x) a b ∧ goal b := by
  rintro ⟨b, hreach, hgoal⟩
  exact h.missed b (h.marked.revisited.mem_iff.mpr hreach) (Set.notMem_empty b) hgoal

end Missed

/-- A loop of calls ends, if each does. What a call has done is not undone by those behind it. -/
theorem settles_foldlM {f : Nat → σ → γ → Option σ} {owes : Set α → σ → σ → Prop} (h : Sequential owes)
    (goal : γ → Set α) (I : σ → Prop) (done : γ → σ → Prop)
    (hdone : ∀ c t s s', owes t s s' → done c s → done c s') (cs : List γ)
    (hf : ∀ c ∈ cs, ∀ s, I s → ∃ s', Settles (fun fuel => f fuel s c) s' ∧ owes (goal c) s s' ∧ I s' ∧ done c s')
    (s : σ) (hs : I s) :
    ∃ s', Settles (fun fuel => cs.foldlM (f fuel) s) s' ∧ owes (⋃ c ∈ cs, goal c) s s' ∧ I s' ∧
      ∀ c ∈ cs, done c s' := by
  induction cs generalizing s with
  | nil =>
    refine ⟨s, .of_forall fun fuel => rfl, ?_, hs, fun c hc => nomatch hc⟩
    simpa using h.nothing s
  | cons c rest ih =>
    obtain ⟨mid, hstep, howes, hmid, hc⟩ := hf c List.mem_cons_self s hs
    obtain ⟨s', hrest, howes', hs', hall⟩ := ih (fun d hd => hf d (List.mem_cons_of_mem c hd)) mid hmid
    have hboth := h.append howes howes'
    refine ⟨s', hstep.bind (g := fun fuel s => rest.foldlM (f fuel) s) hrest, by simpa using hboth, hs', ?_⟩
    exact List.forall_mem_cons.mpr ⟨hdone c _ mid s' howes' hc, hall⟩

/-- A loop of searches ends. It found something behind searches that did not, or none of them did. `clean` is what a
member is where nothing was found. -/
theorem settles_untilFound {f : Nat → γ → σ → Option (Bool × σ)} {owes : Set α → σ → σ → Prop} (h : Sequential owes)
    (goal : γ → Set α) (I : σ → Prop) (found : γ → σ → σ → Prop) (clean : γ → Prop) (cs : List γ)
    (hf : ∀ c ∈ cs, ∀ s, I s → ∃ b s', Settles (fun fuel => f fuel c s) (b, s') ∧
      (b = true → found c s s') ∧ (b = false → owes (goal c) s s' ∧ I s' ∧ clean c)) (s : σ) (hs : I s) :
    ∃ b s', Settles (fun fuel => untilFound (f fuel) cs s) (b, s') ∧
      (b = true → ∃ c ∈ cs, ∃ t mid, owes t s mid ∧ found c mid s') ∧
      (b = false → owes (⋃ c ∈ cs, goal c) s s' ∧ ∀ c ∈ cs, clean c) := by
  induction cs generalizing s with
  | nil =>
    refine ⟨false, s, .of_forall fun fuel => rfl, (fun hb => nomatch hb), fun _ => ⟨?_, fun c hc => nomatch hc⟩⟩
    simpa using h.nothing s
  | cons c rest ih =>
    obtain ⟨b, mid, hstep, hfound, hmissed⟩ := hf c List.mem_cons_self s hs
    cases b with
    | true =>
      have hsettles : Settles (fun fuel => untilFound (f fuel) (c :: rest) s) (true, mid) :=
        hstep.bind (.of_forall fun fuel => rfl)
      exact ⟨true, mid, hsettles, fun _ => ⟨c, List.mem_cons_self, ∅, s, h.nothing s, hfound rfl⟩, fun hb => nomatch hb⟩
    | false =>
      obtain ⟨howes, hmid, hclean⟩ := hmissed rfl
      obtain ⟨b, s', hrest, hfound', hmissed'⟩ := ih (fun d hd => hf d (List.mem_cons_of_mem c hd)) mid hmid
      refine ⟨b, s', hstep.bind hrest, fun hb => ?_, fun hb => ?_⟩
      · obtain ⟨d, hd, t, mid', howes', hd'⟩ := hfound' hb
        exact ⟨d, List.mem_cons_of_mem c hd, _, mid', h.append howes howes', hd'⟩
      · have hboth := h.append howes (hmissed' hb).1
        exact ⟨by simpa using hboth, List.forall_mem_cons.mpr ⟨hclean, (hmissed' hb).2⟩⟩

end Funbun.Library.Search
