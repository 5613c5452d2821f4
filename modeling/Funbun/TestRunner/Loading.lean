import Funbun.TestRunner.ExecutionRuns

/-! What is loaded into the execution phase.

Every sequence of an order is a hook, or a test between the hooks of the scopes around it, and
none has begun. -/
namespace Funbun.TestRunner

/-! ### The sequences of an order -/

/-- A test in a scope, with the hooks of the scopes around it. -/
inductive Within : List EachHooks → DescribeScope → List EachHooks → ExecutionEntry → Prop
  | test {parents : List EachHooks} {s : DescribeScope} {test : ExecutionEntry}
    (entry : .testCallback test ∈ s.entries) : Within parents s (s.eachHooks :: parents) test
  | deeper {parents parents' : List EachHooks} {s child : DescribeScope} {test : ExecutionEntry}
    (entry : .describe child ∈ s.entries) (inside : Within (s.eachHooks :: parents) child parents' test) :
    Within parents s parents' test

/-- A sequence that the plan of a scope can have. -/
def FromScope (parents : List EachHooks) (s : DescribeScope) (x : ExecutionSequence) : Prop :=
  (∃ hook, x = hookSequence hook) ∨ ∃ parents' test, Within parents s parents' test ∧ x = testSequence parents' test

variable {x : ExecutionSequence} {parents : List EachHooks} {s : DescribeScope} {r : Option Prng}

theorem mem_hookSequences {used : Bool} {hooks : List ExecutionEntry}
    (h : x ∈ hookSequences used hooks) : ∃ hook, x = hookSequence hook := by
  rw [hookSequences] at h
  split at h
  · obtain ⟨hook, -, rfl⟩ := List.mem_map.mp h
    exact ⟨hook, rfl⟩
  · cases h

variable {entries : List TestScheduleEntry} {entry : TestScheduleEntry}

theorem mem_planOf {always : Bool} {only : Only} (h : x ∈ planOf always parents only entries) :
    ∃ entry ∈ entries, x ∈ entry.plan always parents := by
  induction entries with
  | nil => cases h
  | cons entry entries ih =>
    rw [planOf, List.mem_append] at h
    rcases h with h | h
    · split at h
      · cases h
      · exact ⟨entry, List.mem_cons_self, h⟩
    · obtain ⟨entry', hentry', hx⟩ := ih h
      exact ⟨entry', List.mem_cons_of_mem _ hentry', hx⟩

theorem mem_plan {always : Bool} (h : x ∈ s.plan always parents) : FromScope parents s x := by
  induction s using DescribeScope.induction
    (Q := fun entry => ∀ parents, x ∈ entry.plan always parents →
      (∃ s, entry = .describe s ∧ FromScope parents s x) ∨
        ∃ test, entry = .testCallback test ∧ x = testSequence parents test) generalizing parents with
  | scope s ih =>
    rw [DescribeScope.plan_eq] at h
    split at h
    · cases h
    · rcases List.mem_append.mp h with h | h
      · exact .inl (mem_hookSequences h)
      · rcases List.mem_append.mp h with h | h
        · obtain ⟨entry, hentry, hx⟩ := mem_planOf h
          rcases ih entry hentry _ hx with ⟨child, rfl, hook | ⟨parents', test, hwithin, rfl⟩⟩ | ⟨test, rfl, rfl⟩
          · exact .inl hook
          · exact .inr ⟨parents', test, .deeper hentry hwithin, rfl⟩
          · exact .inr ⟨_, test, .test hentry, rfl⟩
        · exact .inl (mem_hookSequences h)
  | describe s ih parents h => exact .inl ⟨s, rfl, ih h⟩
  | testCallback test parents h => exact .inr ⟨test, rfl, List.mem_singleton.mp h⟩

theorem mem_arrangeChildren {only : Only}
    (h : entry ∈ (arrangeChildren only (entries.map fun entry => (entry, entry.arrange)) r).1) :
    ∃ entry' ∈ entries, entry = entry' ∨ ∃ r, entry = (entry'.arrange r).1 := by
  induction entries generalizing r with
  | nil => cases h
  | cons first entries ih =>
    simp only [List.map_cons, arrangeChildren] at h
    split at h
    · rcases List.mem_cons.mp h with rfl | h
      · exact ⟨_, List.mem_cons_self, .inl rfl⟩
      · obtain ⟨entry', hentry', hor⟩ := ih h
        exact ⟨entry', List.mem_cons_of_mem _ hentry', hor⟩
    · rcases List.mem_cons.mp h with rfl | h
      · exact ⟨first, List.mem_cons_self, .inr ⟨r, rfl⟩⟩
      · obtain ⟨entry', hentry', hor⟩ := ih h
        exact ⟨entry', List.mem_cons_of_mem _ hentry', hor⟩

theorem mem_arrange
    (h : entry ∈ (s.arrange r).1.entries) : ∃ entry' ∈ s.entries, entry = entry' ∨ ∃ r, entry = (entry'.arrange r).1 := by
  rw [DescribeScope.arrange_eq] at h
  split at h
  · exact ⟨entry, h, .inl rfl⟩
  · obtain ⟨entry', hentry', hor⟩ := mem_arrangeChildren h
    exact ⟨entry', (shuffled_perm _ _).mem_iff.mp hentry', hor⟩

theorem eachHooks_arrange (s : DescribeScope) (r : Option Prng) : (s.arrange r).1.eachHooks = s.eachHooks := by
  rw [DescribeScope.arrange_eq]
  split <;> rfl

/-- The seed moves tests within their scopes only. -/
theorem within_arrange {parents parents' : List EachHooks}
    {test : ExecutionEntry} (h : Within parents (s.arrange r).1 parents' test) : Within parents s parents' test := by
  induction s using DescribeScope.induction
    (Q := fun entry => ∀ child s parents r, entry = .describe child → s = (child.arrange r).1 →
      Within parents s parents' test → Within parents child parents' test) generalizing parents r with
  | scope s ih =>
    have heach := eachHooks_arrange s r
    have hentries : ∀ entry ∈ (s.arrange r).1.entries, ∃ entry' ∈ s.entries,
        entry = entry' ∨ ∃ r, entry = (entry'.arrange r).1 := fun _ => mem_arrange
    generalize (s.arrange r).1 = s' at h heach hentries
    cases h with
    | test hentry =>
      obtain ⟨entry', hentry', hor⟩ := hentries _ hentry
      rw [heach]
      rcases hor with rfl | ⟨r', heq⟩
      · exact .test hentry'
      · cases entry' with
        | testCallback test' =>
          cases heq
          exact .test hentry'
        | describe child => cases heq
    | deeper hentry hinside =>
      obtain ⟨entry', hentry', hor⟩ := hentries _ hentry
      rw [heach] at hinside
      rcases hor with rfl | ⟨r', heq⟩
      · exact .deeper hentry' hinside
      · cases entry' with
        | testCallback test' => cases heq
        | describe child =>
          simp only [TestScheduleEntry.arrange, TestScheduleEntry.describe.injEq] at heq
          exact .deeper hentry' (ih _ hentry' child _ _ r' rfl heq hinside)
  | describe s ih child s' parents r hchild hs' h =>
    cases hchild
    subst hs'
    exact ih h
  | testCallback t child s' parents r hchild => cases hchild

/-- Every sequence of a file is a hook or one of its tests. -/
theorem Collection.mem_sequences {c : Collection} (h : x ∈ c.generateOrder.2.sequences) :
    FromScope [c.hookScope.eachHooks] c.rootScope x := by
  rw [(generateOrder_ordered c).2.1] at h
  rcases List.mem_append.mp h with h | h
  · rcases List.mem_append.mp h with h | h
    · exact .inl (mem_hookSequences h)
    · apply (mem_plan h).imp id
      intro ⟨parents', test, hwithin, hx⟩
      exact ⟨parents', test, within_arrange hwithin, hx⟩
  · exact .inl (mem_hookSequences h)

theorem testEntries_ne_nil (parents : List EachHooks) (test : ExecutionEntry) : testEntries parents test ≠ [] := by
  rw [testEntries]
  split <;> simp

theorem FromScope.fresh (h : FromScope parents s x) : x.executing = false ∧ x.incomplete = true := by
  rcases h with ⟨hook, rfl⟩ | ⟨parents', test, -, rfl⟩
  · exact ⟨rfl, rfl⟩
  · exact ⟨rfl, ExecutionSequence.incomplete_iff.mpr (testEntries_ne_nil parents' test)⟩

/-! ### The loaded state -/

theorem ConcurrentGroup.length_sequences {n m : Nat} {gs : List ConcurrentGroup} {all : List ExecutionSequence}
    (h : Partition n gs m) (hm : m = all.length) {g : ConcurrentGroup} (hg : g ∈ gs) :
    (g.sequences all).length = g.sequenceEnd - g.sequenceStart := by
  obtain ⟨j, hj⟩ := List.mem_iff_getElem?.mp hg
  have hle := (h.end_le hj).2
  rw [ConcurrentGroup.sequences, List.length_take, List.length_drop]
  omega

namespace BunTest

theorem load_settled (c : Collection) (maxConcurrency : Nat) :
    Settled ⟨c.generateOrder.2, maxConcurrency⟩ (load c.generateOrder.2 maxConcurrency) 0 := by
  have hgrouped := (Collection.generateOrder_ordered c).1
  have hfresh : ∀ s ∈ c.generateOrder.2.sequences, s.executing = false ∧ s.incomplete = true :=
    fun s hs => (Collection.mem_sequences hs).fresh
  generalize c.generateOrder.2 = o at *
  have hnone : ∀ (g : ConcurrentGroup), ∀ s ∈ g.sequences o.sequences, s.executing = false ∧ s.incomplete = true := by
    intro g s hs
    obtain ⟨i, -, hs⟩ := ConcurrentGroup.mem_sequences.mp hs
    exact hfresh s (List.mem_of_getElem? hs)
  refine ⟨⟨rfl, rfl, rfl, rfl, ?_, ?_, ?_, by simp, ?_, ?_⟩, ?_⟩
  · intro j g hg
    have hmem := List.mem_of_getElem? hg
    obtain ⟨hexecuting, hnext, hremaining⟩ := hgrouped.untouched g hmem
    refine ⟨?_, fun _ => ⟨hexecuting, hnext, List.not_mem_nil⟩, fun _ => ?_⟩
    · rw [hremaining, ← ConcurrentGroup.length_sequences hgrouped.partition rfl hmem]
      exact (List.countP_eq_length.mpr fun s hs => (hnone g s hs).2).symm
    · rw [hexecuting]
      simp [HasStarted, load]
  · intro g hg
    rw [(hgrouped.untouched g (List.mem_of_getElem? hg)).2.1]
    exact ⟨Nat.le_refl 0, Nat.zero_le _⟩
  · intro j g _ i s _ hs _
    obtain ⟨hexecuting, hinc⟩ := hfresh s (List.mem_of_getElem? hs)
    refine ⟨?_, ?_, fun hlt => absurd hlt (Nat.not_lt_zero j), fun _ => ⟨hexecuting, hinc⟩,
      fun _ hlt => absurd hlt (Nat.not_lt_zero _), fun _ _ => ⟨hexecuting, hinc⟩⟩
    · rw [hexecuting]
      exact fun h => absurd h Bool.false_ne_true
    · rw [hinc]
      rfl
  · intro _
    have hzero : (load o maxConcurrency).execution.executing = 0 := by
      rw [Execution.executing]
      split
      · rfl
      · rename_i g _
        rw [List.countP_eq_zero]
        intro s hs
        simp [(hnone g s hs).1]
    exact hzero.trans_le (Nat.zero_le _)
  · refine ⟨by simp [load], by simp [load], by simp [HasStarted, load], by simp [load], ?_, by simp [load]⟩
    exact fun j hj => absurd hj (Nat.not_lt_zero j)
  · intro g d htoken
    simp [Token, load] at htoken

end BunTest

end Funbun.TestRunner
