import Funbun.TestRunner.Moves

/-! Which attempt a result counts for.

A token holds how often its sequence was still to be repeated. What is told of the sequence since (`Tells`) decides whether
the token can be accepted: a repeat leaves fewer, and only a retry brings back an entry that is completed. -/
namespace Funbun.TestRunner

/-! ### Entries -/

/-- No two entries are the same, none skips back, and all were made before `n`. -/
structure WellFormed (n : Nat) (keys : List (Nat × Option Nat)) : Prop where
  distinct : (keys.map Prod.fst).Nodup
  forward : keys.Pairwise fun a b => b.2 ≠ some a.1
  made : ∀ k ∈ keys, k.1 < n ∧ ∀ id, k.2 = some id → id < n

def ExecutionSequence.keys (s : ExecutionSequence) : List (Nat × Option Nat) := s.entries.map ExecutionEntry.key

variable {n j i : Nat} {b b' : BunTest} {added : List Mark} {s : ExecutionSequence} {a : ConcurrentGroup}
  {test : ExecutionEntry} {parents : List EachHooks}

theorem WellFormed.sublist {keys keys' : List (Nat × Option Nat)} (h : WellFormed n keys)
    (hsub : keys'.Sublist keys) : WellFormed n keys' where
  distinct := h.distinct.sublist (hsub.map _)
  forward := h.forward.sublist hsub
  made k hk := h.made k (hsub.subset hk)

theorem WellFormed.mono {n m : Nat} {keys : List (Nat × Option Nat)} (h : WellFormed n keys) (hle : n ≤ m) :
    WellFormed m keys where
  distinct := h.distinct
  forward := h.forward
  made k hk := ⟨(h.made k hk).1.trans_le hle, fun id hid => ((h.made k hk).2 id hid).trans_le hle⟩

/-- A new entry fits anywhere. -/
theorem WellFormed.insert {l r : List (Nat × Option Nat)} (h : WellFormed n (l ++ r)) :
    WellFormed (n + 1) (l ++ (n, none) :: r) where
  distinct := by
    rw [List.map_append, List.map_cons]
    apply (List.perm_middle.nodup_iff).mpr
    rw [← List.map_append, List.nodup_cons]
    refine ⟨?_, h.distinct⟩
    intro hmem
    obtain ⟨k, hk, hkn⟩ := List.mem_map.mp hmem
    have hlt : k.1 < n := (h.made k hk).1
    exact Nat.ne_of_lt hlt hkn
  forward := by
    obtain ⟨hl, hr, hlr⟩ := List.pairwise_append.mp h.forward
    refine List.pairwise_append.mpr ⟨hl, List.pairwise_cons.mpr ⟨?_, hr⟩, ?_⟩
    · intro b hb hid
      exact Nat.lt_irrefl n ((h.made b (List.mem_append_right l hb)).2 n hid)
    · intro a ha b hb
      rcases List.mem_cons.mp hb with rfl | hb
      · exact nofun
      · exact hlr a ha b hb
  made k hk := by
    have hmem : k = (n, none) ∨ k ∈ l ++ r := by
      simp only [List.mem_append, List.mem_cons] at hk ⊢
      tauto
    rcases hmem with rfl | hmem
    · exact ⟨Nat.lt_succ_self n, nofun⟩
    · obtain ⟨hlt, hskip⟩ := h.made k hmem
      exact ⟨hlt.trans (Nat.lt_succ_self n), fun id hid => (hskip id hid).trans (Nat.lt_succ_self n)⟩

namespace ExecutionSequence

variable {s s' : ExecutionSequence}

theorem Same.keys (h : Same s s') : s'.keys = s.keys := by
  rw [ExecutionSequence.keys, entries, List.map_append, h.passed, h.remaining, ← List.map_append]
  rfl

theorem Same.passed_ids (h : Same s s') :
    s'.passed.map ExecutionEntry.id = s.passed.map ExecutionEntry.id := by
  have hfst := congrArg (List.map Prod.fst) h.passed
  rwa [List.map_map, List.map_map] at hfst

theorem Same.active_id (h : Same s s') :
    s'.activeEntry.map ExecutionEntry.id = s.activeEntry.map ExecutionEntry.id := by
  have hhead := congrArg (fun l => (l.map Prod.fst).head?) h.remaining
  simp only [List.map_map, List.head?_map] at hhead
  exact hhead

theorem completeEntry_repeats (s : ExecutionSequence) :
    s.completeEntry.remainingRepeatCount = s.remainingRepeatCount := by
  rw [completeEntry]
  split
  · rfl
  · dsimp only
    split
    · split <;> rfl
    · rfl

/-- An entry that is completed is behind the active one then, with all that were. -/
theorem completeEntry_passed {n : Nat} (h : WellFormed n s.keys) {entry : ExecutionEntry}
    {rest : List ExecutionEntry} (hremaining : s.remaining = entry :: rest) :
    ∃ skipped, s.completeEntry.passed = s.passed ++ entry :: skipped := by
  rw [completeEntry, hremaining]
  dsimp only
  split
  · cases hskip : entry.failureSkipPast with
    | none => exact ⟨rest, rfl⟩
    | some id =>
      have hbehind : ∀ e ∈ s.passed, decide (e.id = id) = false := by
        have hforward := h.forward
        rw [ExecutionSequence.keys, entries, List.map_append, List.pairwise_append] at hforward
        intro e he
        have hne := hforward.2.2 e.key (List.mem_map_of_mem he) entry.key
          (List.mem_map_of_mem (hremaining ▸ List.mem_cons_self))
        simp only [ExecutionEntry.key, hskip] at hne
        simpa [eq_comm] using hne
      have hindex : (s.passed ++ entry :: rest).findIdx (fun e => e.id = id) =
          s.passed.length + (entry :: rest).findIdx (fun e => e.id = id) := by
        rw [List.findIdx_append, List.findIdx_eq_length_of_false hbehind, if_neg (Nat.lt_irrefl _), Nat.add_comm]
      refine ⟨rest.take ((entry :: rest).findIdx fun e => e.id = id), ?_⟩
      simp only [skipPast]
      rw [hindex, Nat.add_assoc, List.take_length_add_append, List.take_succ_cons]
  · exact ⟨[], rfl⟩

/-- A hook that is added goes somewhere behind the active entry. -/
theorem addHook_remaining (hactive : s.activeEntry.isSome = true) (tag : HookTag)
    (entry : ExecutionEntry) : ∃ l r, l ≠ [] ∧ s.remaining = l ++ r ∧ (s.addHook tag entry).remaining = l ++ entry :: r := by
  rw [activeEntry, List.isSome_head?] at hactive
  have hne : s.remaining ≠ [] := by
    intro hnil
    simp [hnil] at hactive
  have hinsert : ∀ point < s.remaining.length,
      ∃ l r, l ≠ [] ∧ s.remaining = l ++ r ∧ s.remaining.insertIdx (point + 1) entry = l ++ entry :: r := by
    intro point hpoint
    obtain ⟨l, r, hsplit, hlength, hinsert⟩ :=
      List.exists_of_modifyTailIdx (List.cons entry) (Nat.succ_le_of_lt hpoint)
    refine ⟨l, r, ?_, hsplit, hinsert⟩
    intro hnil
    rw [hnil] at hlength
    cases hlength
  cases tag with
  | onTestFinished => exact ⟨s.remaining, [], hne, (List.append_nil _).symm, rfl⟩
  | afterAll =>
    apply hinsert
    split
    · assumption
    · exact List.length_pos_iff.mpr hne
  | afterEach =>
    apply hinsert
    split
    · assumption
    · exact List.length_pos_iff.mpr hne

end ExecutionSequence

/-! ### Tokens -/

/-- What is known of a token for the `i`-th sequence, with the marks that were made since: the
sequence was retried; or it has fewer repeats left; or the entry is behind the active one; or the
entry is the active one and this is the start that the token is for. -/
def Tells (since : List Mark) (i : Nat) (d : EntryData) (s : ExecutionSequence) : Prop :=
  .sequenceRetried i ∈ since ∨ s.remainingRepeatCount < d.remainingRepeatCount ∨
    s.remainingRepeatCount = d.remainingRepeatCount ∧
      (d.entry ∈ s.passed.map ExecutionEntry.id ∨
        s.activeEntry.map ExecutionEntry.id = some d.entry ∧
          .entryCompleted i ∉ since ∧ .sequenceRepeated i ∉ since)

section Tells
variable {since : List Mark} {i : Nat} {d : EntryData} {s s' : ExecutionSequence}

theorem Tells.same (h : Tells since i d s) (hsame : s.Same s') : Tells since i d s' := by
  rw [Tells, hsame.repeats, hsame.passed_ids, hsame.active_id]
  exact h

theorem Tells.append (h : Tells since i d s) {m : Mark} (hcompleted : m ≠ .entryCompleted i)
    (hrepeated : m ≠ .sequenceRepeated i) : Tells (since ++ [m]) i d s := by
  apply h.imp (List.mem_append_left _)
  apply Or.imp id
  intro ⟨hrepeats, hentry⟩
  refine ⟨hrepeats, hentry.imp id ?_⟩
  intro ⟨hactive, hnot, hnot'⟩
  simp only [List.mem_append, List.mem_singleton, not_or]
  exact ⟨hactive, ⟨hnot, hcompleted.symm⟩, hnot', hrepeated.symm⟩

theorem Tells.complete {n : Nat} (h : Tells since i d s) (hs : WellFormed n s.keys) :
    Tells (since ++ [.entryCompleted i]) i d s.completeEntry := by
  rw [Tells, s.completeEntry_repeats]
  apply h.imp (List.mem_append_left _)
  apply Or.imp id
  intro ⟨hrepeats, hentry⟩
  refine ⟨hrepeats, .inl ?_⟩
  cases hremaining : s.remaining with
  | nil =>
    rw [ExecutionSequence.completeEntry, hremaining]
    apply hentry.resolve_right
    intro hactive
    simp [ExecutionSequence.activeEntry, hremaining] at hactive
  | cons entry rest =>
    obtain ⟨skipped, hpassed⟩ := ExecutionSequence.completeEntry_passed hs hremaining
    rw [hpassed, List.map_append, List.map_cons]
    rcases hentry with hpast | ⟨hactive, -⟩
    · exact List.mem_append_left _ hpast
    · simp only [ExecutionSequence.activeEntry, hremaining, List.head?_cons, Option.map_some, Option.some.injEq] at hactive
      exact List.mem_append_right _ (hactive ▸ List.mem_cons_self)

theorem Tells.retry : Tells (since ++ [.sequenceRetried i]) i d s' :=
  .inl (List.mem_append_right _ (List.mem_singleton_self _))

theorem Tells.rerun (h : Tells since i d s) (hfewer : s'.remainingRepeatCount < s.remainingRepeatCount) :
    Tells (since ++ [.sequenceRepeated i]) i d s' := by
  apply h.imp (List.mem_append_left _)
  intro hor
  left
  rcases hor with hlt | ⟨heq, -⟩
  · exact hfewer.trans hlt
  · exact heq ▸ hfewer

/-- A token that is accepted is for the start that is not completed, if the sequence was not retried. -/
theorem Tells.accepted {n : Nat} (h : Tells since i d s) (hs : WellFormed n s.keys)
    (hrepeats : s.remainingRepeatCount = d.remainingRepeatCount)
    (hactive : s.activeEntry.map ExecutionEntry.id = some d.entry) (hretried : .sequenceRetried i ∉ since) :
    .entryCompleted i ∉ since ∧ .sequenceRepeated i ∉ since := by
  rcases h with hmem | hlt | ⟨-, hpast | ⟨-, hfresh⟩⟩
  · exact absurd hmem hretried
  · omega
  · -- the entry would be there twice
    exfalso
    have hdistinct := hs.distinct
    rw [ExecutionSequence.keys, ExecutionSequence.entries, List.map_map, List.map_append,
      List.nodup_append] at hdistinct
    rw [ExecutionSequence.activeEntry, ← List.head?_map] at hactive
    exact hdistinct.2.2 d.entry hpast d.entry (List.mem_of_mem_head? hactive) rfl
  · exact hfresh

end Tells

/-- The place of the sequence a token is for, if its group is this one. -/
def EntryData.place (d : EntryData) (a : ConcurrentGroup) : Nat := a.sequenceStart + d.sequenceIndex

/-- What holds of every runner. -/
structure Told (b : BunTest) : Prop where
  wellFormed : ∀ (i : Nat) (s : ExecutionSequence), b.execution.sequences[i]? = some s → WellFormed b.nextEntry s.keys
  ahead : ∀ (j : Nat) (g : ConcurrentGroup), b.execution.groups[j]? = some g → j < g.failureSkipTo
  tokens : ∀ n g d a, b.log[n]? = some (.callbackQueued (.execution g (some d))) →
    b.execution.groups[g]? = some a → g ≤ b.execution.groupIndex ∧
      (g = b.execution.groupIndex → ∀ s, b.execution.sequences[d.place a]? = some s →
        Tells (b.log.drop (n + 1)) (d.place a) d s)
  accepts : ∀ n m g d a, n < m → b.log[n]? = some (.callbackQueued (.execution g (some d))) →
    b.log[m]? = some (.accepted (.execution g (some d))) → b.execution.groups[g]? = some a →
      .sequenceRetried (d.place a) ∉ (b.log.take m).drop (n + 1) →
        .entryCompleted (d.place a) ∉ (b.log.take m).drop (n + 1) ∧
          .sequenceRepeated (d.place a) ∉ (b.log.take m).drop (n + 1)

/-! ### What every move keeps -/

theorem range_of_map (h : b'.execution.groups.map ConcurrentGroup.range = b.execution.groups.map ConcurrentGroup.range)
    {a' : ConcurrentGroup} (ha' : b'.execution.groups[j]? = some a') :
    ∃ a, b.execution.groups[j]? = some a ∧ a'.range = a.range := by
  have hget := congrArg (fun l => l[j]?) h
  simp only [List.getElem?_map, ha', Option.map_some] at hget
  obtain ⟨a, ha, hrange⟩ := Option.map_eq_some_iff.mp hget.symm
  exact ⟨a, ha, hrange.symm⟩

theorem EntryData.place_congr (d : EntryData) {a a' : ConcurrentGroup} (h : a'.range = a.range) : d.place a' = d.place a := by
  have hstart : a'.sequenceStart = a.sequenceStart := congrArg Prod.fst h
  rw [EntryData.place, EntryData.place, hstart]

theorem getElem?_log {log added : List Mark} {m : Mark} (h : (log ++ added)[n]? = some m) (hm : m ∉ added) :
    n < log.length ∧ log[n]? = some m := by
  rw [List.getElem?_append] at h
  split at h
  · rename_i hlt
    exact ⟨hlt, h⟩
  · exact absurd (List.mem_of_getElem? h) hm

/-- A change that makes no token and accepts none. -/
theorem Told.keep (h : Told b) (hlog : b'.log = b.log ++ added)
    (hadded : ∀ m ∈ added, ∀ data, m ≠ .callbackQueued data ∧ m ≠ .accepted data)
    (hgroups : b'.execution.groups.map ConcurrentGroup.range = b.execution.groups.map ConcurrentGroup.range)
    (hindex : b'.execution.groupIndex = b.execution.groupIndex)
    (hsequences : ∀ i s', b'.execution.sequences[i]? = some s' → ∃ s, b.execution.sequences[i]? = some s ∧
      WellFormed b'.nextEntry s'.keys ∧ ∀ since d, Tells since i d s → Tells (since ++ added) i d s') : Told b' where
  wellFormed i s' hs' := by
    obtain ⟨-, -, hwell, -⟩ := hsequences i s' hs'
    exact hwell
  ahead j g' hg' := by
    obtain ⟨g, hg, hrange⟩ := range_of_map hgroups hg'
    have hskip : g'.failureSkipTo = g.failureSkipTo := congrArg (fun r => r.2.2) hrange
    exact hskip ▸ h.ahead j g hg
  tokens n g d a' hn ha' := by
    obtain ⟨a, ha, hrange⟩ := range_of_map hgroups ha'
    rw [hlog] at hn
    obtain ⟨hlt, hn⟩ := getElem?_log hn fun hmem => (hadded _ hmem _).1 rfl
    obtain ⟨hle, htells⟩ := h.tokens n g d a hn ha
    rw [hindex, d.place_congr hrange]
    refine ⟨hle, fun hg s' hs' => ?_⟩
    obtain ⟨s, hs, -, hstep⟩ := hsequences _ s' hs'
    rw [hlog, List.drop_append_of_le_length hlt]
    exact hstep _ d (htells hg s hs)
  accepts n m g d a' hnm hn hm ha' := by
    obtain ⟨a, ha, hrange⟩ := range_of_map hgroups ha'
    rw [hlog] at hn hm ⊢
    obtain ⟨-, hn⟩ := getElem?_log hn fun hmem => (hadded _ hmem _).1 rfl
    obtain ⟨hlt, hm⟩ := getElem?_log hm fun hmem => (hadded _ hmem _).2 rfl
    rw [d.place_congr hrange, List.take_append_of_le_length hlt.le]
    exact h.accepts n m g d a hnm hn hm ha

theorem getElem?_set_cases {s' x : ExecutionSequence} (h : (b.setSequence i s').execution.sequences[j]? = some x) :
    j = i ∧ x = s' ∨ j ≠ i ∧ b.execution.sequences[j]? = some x := by
  simp only [BunTest.setSequence, List.getElem?_set] at h
  split at h
  · rename_i hij
    split at h
    · cases h
      exact .inl ⟨hij.symm, rfl⟩
    · cases h
  · rename_i hij
    exact .inr ⟨Ne.symm hij, h⟩

theorem Tells.marks {since : List Mark} {d : EntryData} (h : Tells since i d s) (hij : i ≠ j)
    (hadded : ∀ m ∈ added, m = .entryCompleted j ∨ m = .sequenceRetried j ∨ m = .sequenceRepeated j) :
    Tells (since ++ added) i d s := by
  induction added generalizing since with
  | nil => rwa [List.append_nil]
  | cons m added ih =>
    obtain ⟨hm, hrest⟩ := List.forall_mem_cons.mp hadded
    rw [← List.singleton_append, ← List.append_assoc]
    apply ih (h.append _ _) hrest
    · rintro rfl
      simp [hij] at hm
    · rintro rfl
      simp [hij] at hm

/-- A change of one sequence, with marks that are about it. -/
theorem Told.change (h : Told b) {s s' : ExecutionSequence}
    (hexecution : b'.execution = (b.setSequence i s').execution) (hnext : b.nextEntry ≤ b'.nextEntry)
    (hlog : b'.log = b.log ++ added) (hs : b.execution.sequences[i]? = some s) (hwell : WellFormed b'.nextEntry s'.keys)
    (hadded : ∀ m ∈ added, m = .entryCompleted i ∨ m = .sequenceRetried i ∨ m = .sequenceRepeated i)
    (htells : ∀ since d, Tells since i d s → Tells (since ++ added) i d s') : Told b' := by
  apply h.keep hlog
  · intro m hm data
    rcases hadded m hm with rfl | rfl | rfl <;> exact ⟨nofun, nofun⟩
  · rw [hexecution]
    rfl
  · rw [hexecution]
    rfl
  · intro j x hx
    rw [hexecution] at hx
    rcases getElem?_set_cases hx with ⟨rfl, rfl⟩ | ⟨hj, hx⟩
    · exact ⟨s, hs, hwell, htells⟩
    · exact ⟨x, hx, (h.wellFormed j x hx).mono hnext, fun since d htold => htold.marks hj hadded⟩

theorem Told.accept (h : Told b) (data : RefData) : Told (b.accept data) := by
  rw [BunTest.accept]
  split
  · exact h
  · rename_i i hvalid
    obtain ⟨a, d, s, ha, rfl, rfl, -, hs, hrepeats, hactive⟩ := Execution.validSequence_eq_some hvalid
    obtain ⟨hwell, hahead, htokens, haccepts⟩ := h
    have hin : ∀ n g d', (b.emit (.accepted (.execution b.execution.groupIndex (some d)))).log[n]? =
        some (.callbackQueued (.execution g (some d'))) →
          n < b.log.length ∧ b.log[n]? = some (.callbackQueued (.execution g (some d'))) :=
      fun n g d' hn => getElem?_log hn (by simp)
    refine ⟨hwell, hahead, ?_, ?_⟩
    · intro n g d' a' hn ha'
      obtain ⟨hlt, hn⟩ := hin n g d' hn
      obtain ⟨hle, htells⟩ := htokens n g d' a' hn ha'
      refine ⟨hle, fun hg s' hs' => ?_⟩
      rw [BunTest.emit, List.drop_append_of_le_length hlt]
      exact (htells hg s' hs').append (by simp) (by simp)
    · intro n m g d' a' hnm hn hm ha'
      obtain ⟨hlt, hn⟩ := hin n g d' hn
      rcases Nat.lt_or_ge m b.log.length with hm' | hm'
      · rw [BunTest.emit, List.getElem?_append_left hm'] at hm
        rw [BunTest.emit, List.take_append_of_le_length hm'.le]
        exact haccepts n m g d' a' hnm hn hm ha'
      · -- this is the token that is accepted
        have hlast : m = b.log.length := by
          have := (List.getElem?_eq_some_iff.mp hm).choose
          rw [BunTest.emit, List.length_append, List.length_singleton] at this
          omega
        subst hlast
        rw [BunTest.emit, List.getElem?_append_right (Nat.le_refl _), Nat.sub_self] at hm
        cases hm
        cases ha.symm.trans ha'
        rw [BunTest.emit, List.take_left]
        intro hretried
        exact ((htokens n _ d a hn ha).2 rfl s hs).accepted (hwell _ s hs) hrepeats hactive hretried

theorem Told.token (h : Told b) {index : Nat} {entry : ExecutionEntry} (ha : b.execution.activeGroup = some a)
    (hs : b.execution.sequences[a.sequenceStart + index]? = some s)
    (hactive : s.activeEntry.map ExecutionEntry.id = some entry.id) :
    Told (b.emit (.callbackQueued
      (.execution b.execution.groupIndex (some ⟨index, entry.id, s.remainingRepeatCount⟩)))) := by
  obtain ⟨hwell, hahead, htokens, haccepts⟩ := h
  refine ⟨hwell, hahead, ?_, ?_⟩
  · intro n g d a' hn ha'
    rcases Nat.lt_or_ge n b.log.length with hlt | hge
    · rw [BunTest.emit, List.getElem?_append_left hlt] at hn
      obtain ⟨hle, htells⟩ := htokens n g d a' hn ha'
      refine ⟨hle, fun hg s' hs' => ?_⟩
      rw [BunTest.emit, List.drop_append_of_le_length hlt]
      exact (htells hg s' hs').append (by simp) (by simp)
    · have hlast : n = b.log.length := by
        have := (List.getElem?_eq_some_iff.mp hn).choose
        rw [BunTest.emit, List.length_append, List.length_singleton] at this
        omega
      subst hlast
      rw [BunTest.emit, List.getElem?_append_right (Nat.le_refl _), Nat.sub_self] at hn
      cases hn
      cases ha.symm.trans ha'
      refine ⟨Nat.le_refl _, fun _ s' hs' => ?_⟩
      cases hs.symm.trans hs'
      have hsince : (b.log ++ [Mark.callbackQueued (.execution b.execution.groupIndex
          (some ⟨index, entry.id, s.remainingRepeatCount⟩))]).drop (b.log.length + 1) = [] := by simp
      rw [BunTest.emit, hsince]
      exact .inr (.inr ⟨rfl, .inr ⟨hactive, List.not_mem_nil, List.not_mem_nil⟩⟩)
  · intro n m g d a' hnm hn hm ha'
    obtain ⟨hlt, hm⟩ := getElem?_log hm (by simp)
    rw [BunTest.emit, List.getElem?_append_left (hnm.trans hlt)] at hn
    rw [BunTest.emit, List.take_append_of_le_length hlt.le]
    exact haccepts n m g d a' hnm hn hm ha'

theorem Told.leave (h : Told b) (ha : b.execution.activeGroup = some a) {next : Nat}
    (hnext : b.execution.groupIndex < a.failureSkipTo → b.execution.groupIndex < next) :
    Told {b with execution := {b.execution with groupIndex := next}} := by
  have hlt := hnext (h.ahead _ a ha)
  refine ⟨h.wellFormed, h.ahead, ?_, h.accepts⟩
  intro n g d a' hn ha'
  have hle := (h.tokens n g d a' hn ha').1
  refine ⟨hle.trans hlt.le, fun hg => ?_⟩
  have hg' : g = next := hg
  omega

/-- A change that is not to the sequences. -/
theorem Told.unchanged (h : Told b) (hsequences : b'.execution.sequences = b.execution.sequences)
    (hgroups : b'.execution.groups.map ConcurrentGroup.range = b.execution.groups.map ConcurrentGroup.range)
    (hindex : b'.execution.groupIndex = b.execution.groupIndex) (hnext : b.nextEntry ≤ b'.nextEntry)
    (hlog : b'.log = b.log ++ added) (hadded : ∀ m ∈ added, m.Plain) : Told b' := by
  apply h.keep hlog _ hgroups hindex
  · intro i s hs
    rw [hsequences] at hs
    refine ⟨s, hs, (h.wellFormed i s hs).mono hnext, ?_⟩
    intro since d htold
    clear hlog
    induction added generalizing since with
    | nil => rwa [List.append_nil]
    | cons m added ih =>
      obtain ⟨hm, hrest⟩ := List.forall_mem_cons.mp hadded
      rw [← List.singleton_append, ← List.append_assoc]
      apply ih hrest _ (htold.append _ _)
      · rintro rfl
        exact hm
      · rintro rfl
        exact hm
  · intro m hm data
    have hplain := hadded m hm
    cases m with
    | callbackQueued data' => exact hplain.elim
    | accepted data' => exact hplain.elim
    | _ => exact ⟨nofun, nofun⟩

theorem Told.hook (h : Told b) (hs : b.execution.sequences[i]? = some s)
    (hactive : s.activeEntry.isSome = true) (tag : HookTag) (hasDoneParameter : Bool) (timeout : Nat) :
    Told {b.setSequence i (s.addHook tag (b.createHook hasDoneParameter timeout)) with nextEntry := b.nextEntry + 1} := by
  have hpassed : (s.addHook tag (b.createHook hasDoneParameter timeout)).passed = s.passed := by cases tag <;> rfl
  have hrepeats : (s.addHook tag (b.createHook hasDoneParameter timeout)).remainingRepeatCount =
      s.remainingRepeatCount := by cases tag <;> rfl
  obtain ⟨l, r, hne, hremaining, hremaining'⟩ := s.addHook_remaining hactive tag (b.createHook hasDoneParameter timeout)
  refine h.change (s := s) rfl (Nat.le_succ _) (List.append_nil _).symm hs ?_ ?_ ?_
  · have hwell := h.wellFormed i s hs
    rw [ExecutionSequence.keys, ExecutionSequence.entries, hremaining, List.map_append, List.map_append,
      ← List.append_assoc] at hwell
    rw [ExecutionSequence.keys, ExecutionSequence.entries, hpassed, hremaining', List.map_append, List.map_append,
      List.map_cons, ← List.append_assoc]
    exact hwell.insert
  · simp
  · intro since d htold
    have hactive' : (s.addHook tag (b.createHook hasDoneParameter timeout)).activeEntry = s.activeEntry := by
      rw [ExecutionSequence.activeEntry, ExecutionSequence.activeEntry, hremaining, hremaining',
        List.head?_append_of_ne_nil _ hne, List.head?_append_of_ne_nil _ hne]
    rw [List.append_nil, Tells, hpassed, hrepeats, hactive']
    exact htold

theorem Move.told (hmove : Move b b') (h : Told b) : Told b' := by
  cases hmove with
  | other hexecution hlog hnext =>
    exact h.unchanged (by rw [hexecution]) (by rw [hexecution]) (by rw [hexecution]) hnext
      (hlog.trans (List.append_nil _).symm) (by simp)
  | emit plain => exact h.unchanged rfl rfl rfl (Nat.le_refl _) rfl (by simpa using plain)
  | accept data => exact h.accept data
  | token group sequence active => exact h.token group sequence active
  | update sequence same =>
    refine h.change rfl (Nat.le_refl _) (List.append_nil _).symm sequence ?_ ?_ ?_
    · exact same.keys ▸ h.wellFormed _ _ sequence
    · simp
    · intro since d htold
      rw [List.append_nil]
      exact htold.same same
  | hook sequence active tag hasDoneParameter timeout => exact h.hook sequence active tag hasDoneParameter timeout
  | complete sequence =>
    have hwell := h.wellFormed _ _ sequence
    refine h.change rfl (Nat.le_refl _) rfl sequence ?_ ?_ ?_
    · rw [ExecutionSequence.keys, ExecutionSequence.completeEntry_entries]
      exact hwell
    · simp
    · exact fun since d htold => htold.complete hwell
  | retry sequence kept =>
    refine h.change rfl (Nat.le_refl _) rfl sequence ((h.wellFormed _ _ sequence).sublist kept) ?_ ?_
    · simp
    · exact fun since d _ => .retry
  | rerun sequence kept fewer =>
    refine h.change rfl (Nat.le_refl _) rfl sequence ((h.wellFormed _ _ sequence).sublist kept) ?_ ?_
    · simp
    · exact fun since d htold => htold.rerun fewer
  | group g range =>
    exact h.unchanged rfl (b.ranges_modifyGroup g range) rfl (Nat.le_refl _) (List.append_nil _).symm
      (by simp)
  | leave group ahead => exact h.leave group ahead

/-- Whatever holds of every runner holds in every run. -/
theorem told_of_moves (hmoves : Relation.ReflTransGen Move b b') (h : Told b) : Told b' := by
  induction hmoves with
  | refl => exact h
  | tail _ hmove ih => exact hmove.told ih

/-! ### Files -/

mutual

/-- The hooks and tests of a scope. -/
def DescribeScope.ids (scope : DescribeScope) : List Nat :=
  match scope with
  | ⟨_, entries, beforeAll, beforeEach, afterEach, afterAll, _⟩ =>
    (beforeAll ++ beforeEach ++ afterEach ++ afterAll).map ExecutionEntry.id ++ idsOf entries
  termination_by structural scope

def TestScheduleEntry.ids (entry : TestScheduleEntry) : List Nat :=
  match entry with
  | .describe scope => scope.ids
  | .testCallback test => [test.id]
  termination_by structural entry

def idsOf (entries : List TestScheduleEntry) : List Nat :=
  match entries with
  | [] => []
  | entry :: entries => entry.ids ++ idsOf entries
  termination_by structural entries

end

/-- A file with its hooks and tests, which are all different. -/
structure File extends Collection where
  distinct : (hookScope.ids ++ rootScope.ids).Nodup

def EachHooks.ids (hooks : EachHooks) : List Nat := (hooks.beforeEach ++ hooks.afterEach).map ExecutionEntry.id

def eachIds (parents : List EachHooks) : List Nat := parents.flatMap EachHooks.ids

theorem idsOf_sublist {entry : TestScheduleEntry} {entries : List TestScheduleEntry} (h : entry ∈ entries) :
    entry.ids.Sublist (idsOf entries) := by
  induction entries with
  | nil => cases h
  | cons first entries ih =>
    rw [idsOf]
    rcases List.mem_cons.mp h with rfl | h
    · exact List.sublist_append_left _ _
    · exact (ih h).trans (List.sublist_append_right _ _)

theorem DescribeScope.ids_eq (s : DescribeScope) :
    s.ids = (s.beforeAll ++ s.beforeEach ++ s.afterEach ++ s.afterAll).map ExecutionEntry.id ++ idsOf s.entries := by
  obtain ⟨base, entries, beforeAll, beforeEach, afterEach, afterAll, failed⟩ := s
  rw [DescribeScope.ids]

theorem DescribeScope.eachHooks_sublist (s : DescribeScope) :
    s.eachHooks.ids.Sublist ((s.beforeAll ++ s.beforeEach ++ s.afterEach ++ s.afterAll).map ExecutionEntry.id) := by
  rw [List.append_assoc, List.append_assoc, ← List.append_assoc s.beforeEach]
  apply List.Sublist.map
  exact (List.sublist_append_left _ _).trans (List.sublist_append_right _ _)

theorem each_sublist {s : DescribeScope} {entry : TestScheduleEntry} (h : entry ∈ s.entries) :
    (s.eachHooks.ids ++ entry.ids).Sublist s.ids := by
  rw [s.ids_eq]
  exact s.eachHooks_sublist.append (idsOf_sublist h)

/-- A test is none of the hooks around it, which are all different. -/
theorem Within.nodup {parents parents' : List EachHooks} {s : DescribeScope}
    (h : Within parents s parents' test) (hdistinct : (eachIds parents ++ s.ids).Nodup) :
    (eachIds parents' ++ [test.id]).Nodup := by
  have hstep : ∀ {parents : List EachHooks} {s : DescribeScope} {entry : TestScheduleEntry}, entry ∈ s.entries →
      (eachIds parents ++ s.ids).Nodup → (eachIds (s.eachHooks :: parents) ++ entry.ids).Nodup := by
    intro parents s entry hentry hdistinct
    have hsub := (each_sublist hentry).append_left (eachIds parents)
    rw [eachIds, List.flatMap_cons, List.append_assoc]
    refine (List.Perm.nodup_iff ?_).mp (hdistinct.sublist hsub)
    rw [← List.append_assoc, ← List.append_assoc]
    exact List.perm_append_comm.append_right _
  induction h with
  | test hentry => exact hstep hentry hdistinct
  | deeper hentry _ ih => exact ih (hstep hentry hdistinct)

theorem testEntries_ids (h : (eachIds parents ++ [test.id]).Nodup) :
    (((parents.map EachHooks.beforeEach).reverse.flatten ++ [test] ++
      (parents.map EachHooks.afterEach).flatten).map ExecutionEntry.id).Nodup := by
  refine (List.Perm.nodup_iff ?_).mp h
  have hall : eachIds parents = (parents.flatMap fun hooks => hooks.beforeEach ++ hooks.afterEach).map ExecutionEntry.id := by
    rw [eachIds, List.map_flatMap]
    rfl
  rw [hall, ← List.map_singleton (f := ExecutionEntry.id) (a := test), ← List.map_append]
  apply List.Perm.map
  have hbefore : (parents.map EachHooks.beforeEach).reverse.flatten.Perm (parents.flatMap EachHooks.beforeEach) :=
    (List.reverse_perm _).flatten
  have hsplit := List.flatMap_append_perm parents EachHooks.beforeEach EachHooks.afterEach
  refine (hsplit.symm.append_right _).trans ?_
  rw [List.append_assoc]
  refine (List.perm_append_comm.append_left _).trans ?_
  rw [← List.append_assoc]
  exact (hbefore.symm.append_right _).append_right _

theorem wellFormed_test (h : (eachIds parents ++ [test.id]).Nodup) (hn : ∀ entry ∈ testEntries parents test, entry.id < n) :
    WellFormed n ((testEntries parents test).map ExecutionEntry.key) := by
  have hids := testEntries_ids h
  rw [testEntries] at hn ⊢
  generalize (parents.map EachHooks.beforeEach).reverse.flatten = before at *
  generalize (parents.map EachHooks.afterEach).flatten = after at *
  split at hn
  · rename_i hcallback
    rw [if_pos hcallback]
    have htest : test.id < n := hn {test with failureSkipPast := some test.id} (by simp)
    refine ⟨?_, ?_, ?_⟩
    · simpa [ExecutionEntry.key, Function.comp_def] using hids
    · have hother : ∀ e ∈ before, e.id ≠ test.id := by
        rw [List.append_assoc, List.map_append, List.nodup_append] at hids
        exact fun e he => hids.2.2 _ (List.mem_map_of_mem he) _ (by simp)
      rw [List.pairwise_map, List.pairwise_append, List.pairwise_map, List.pairwise_append]
      refine ⟨⟨List.pairwise_of_forall_mem_list ?_, List.pairwise_singleton _ _, ?_⟩, ?_, ?_⟩
      · exact fun a ha b _ heq => hother a ha (Option.some.inj heq).symm
      · exact fun a ha b _ heq => hother a ha (Option.some.inj heq).symm
      · exact List.pairwise_map.mpr (List.pairwise_of_forall_mem_list (by simp [ExecutionEntry.key]))
      · intro a _ b hb
        obtain ⟨e, -, rfl⟩ := List.mem_map.mp hb
        simp [ExecutionEntry.key]
    · intro k hk
      obtain ⟨entry, hentry, rfl⟩ := List.mem_map.mp hk
      refine ⟨hn entry hentry, ?_⟩
      intro id hid
      rcases List.mem_append.mp hentry with hmem | hmem
      · obtain ⟨e, -, rfl⟩ := List.mem_map.mp hmem
        cases hid
        exact htest
      · obtain ⟨e, -, rfl⟩ := List.mem_map.mp hmem
        cases hid
  · rename_i hcallback
    rw [if_neg hcallback]
    have htest : test.id < n := hn {test with failureSkipPast := some test.id} (List.mem_singleton_self _)
    refine ⟨List.pairwise_singleton _ _, List.pairwise_singleton _ _, ?_⟩
    intro k hk
    cases List.mem_singleton.mp hk
    exact ⟨htest, fun id hid => (Option.some.inj hid) ▸ htest⟩

theorem FromScope.wellFormed {s : DescribeScope} {x : ExecutionSequence}
    (h : FromScope parents s x) (hdistinct : (eachIds parents ++ s.ids).Nodup)
    (hn : ∀ entry ∈ x.entries, entry.id < n) : WellFormed n x.keys := by
  rcases h with ⟨hook, rfl⟩ | ⟨parents', test, hwithin, rfl⟩
  · refine ⟨List.pairwise_singleton _ _, List.pairwise_singleton _ _, ?_⟩
    intro k hk
    cases List.mem_singleton.mp hk
    exact ⟨hn {hook with failureSkipPast := none} (List.mem_singleton_self _), nofun⟩
  · exact wellFormed_test (hwithin.nodup hdistinct) hn

namespace BunTest

theorem id_lt_nextEntry {o : Order} {maxConcurrency : Nat} {s : ExecutionSequence} (hs : s ∈ o.sequences)
    {entry : ExecutionEntry} (hentry : entry ∈ s.entries) : entry.id < (load o maxConcurrency).nextEntry := by
  have hmem : entry.id ∈ o.sequences.flatMap fun s => s.entries.map ExecutionEntry.id :=
    List.mem_flatMap.mpr ⟨s, hs, List.mem_map_of_mem hentry⟩
  show entry.id < ((o.sequences.flatMap fun s => s.entries.map ExecutionEntry.id).max?.getD 0) + 1
  apply Nat.lt_succ_of_le
  cases hmax : (o.sequences.flatMap fun s => s.entries.map ExecutionEntry.id).max? with
  | none =>
    rw [List.max?_eq_none_iff.mp hmax] at hmem
    cases hmem
  | some top => exact (List.max?_eq_some_iff.mp hmax).2 _ hmem

theorem load_told (f : File) (maxConcurrency : Nat) : Told (load f.generateOrder.2 maxConcurrency) where
  wellFormed i s hs := by
    have hmem : s ∈ f.generateOrder.2.sequences := List.mem_of_getElem? hs
    apply (Collection.mem_sequences hmem).wellFormed
    · have heach : (eachIds [f.hookScope.eachHooks]).Sublist f.hookScope.ids := by
        rw [eachIds, List.flatMap_singleton, f.hookScope.ids_eq]
        exact f.hookScope.eachHooks_sublist.trans (List.sublist_append_left _ _)
      exact f.distinct.sublist (heach.append_right _)
    · exact fun entry hentry => id_lt_nextEntry hmem hentry
  ahead j g hg := ((Collection.generateOrder_ordered f.toCollection).1.bounds j g hg).1
  tokens n g d a hn := by cases hn
  accepts n m g d a hnm hn := by cases hn

/-! ### Late results -/

/-- Between the start of an entry of the `i`-th sequence at `n` and the mark at `m`, the entry was not
completed and the sequence has not begun again. -/
structure SameStart (log : List Mark) (n m i : Nat) : Prop where
  completed : .entryCompleted i ∉ (log.take m).drop (n + 1)
  retried : .sequenceRetried i ∉ (log.take m).drop (n + 1)
  repeated : .sequenceRepeated i ∉ (log.take m).drop (n + 1)

/-- `accepted` takes any token that was made when an entry was started, and any step or exception that
counted for its sequence. A token that is not valid does nothing. -/
structure Attempts (b : BunTest) : Prop where
  accepted : ∀ n m g d a, n < m → b.log[n]? = some (.callbackQueued (.execution g (some d))) →
    b.log[m]? = some (.accepted (.execution g (some d))) → b.execution.groups[g]? = some a →
      (SameStart b.log n m (d.place a) ↔ .sequenceRetried (d.place a) ∉ (b.log.take m).drop (n + 1))
  refused : ∀ w fuel data, b.execution.validSequence data = none → data ≠ .start →
    b.onUncaughtException data = b ∧ step w fuel b data = some (.waiting 0, b.tick)

theorem step_refused (w : World) (fuel : Nat) {b : BunTest} {data : RefData} (h : b.execution.validSequence data = none)
    (hdata : data ≠ .start) : step w fuel b data = some (.waiting 0, b.tick) := by
  have htick : b.tick.execution.validSequence data = none := h
  cases data with
  | start => exact absurd rfl hdata
  | _ => simp only [step, htick]

theorem onUncaughtException_refused {b : BunTest} {data : RefData} (h : b.execution.validSequence data = none) :
    b.onUncaughtException data = b := by
  have haccept : b.accept data = b := by rw [accept, h]
  rw [onUncaughtException, haccept, modifyValid, Execution.modifyValid, h]
  split <;> rfl

/-- **A late result counts for a later attempt exactly if the sequence was retried since**: a repeat
and a completed entry leave no token of before valid, a retry does. -/
theorem runs_attempts (f : File) {w : World} {fuel maxConcurrency : Nat} {actions : List Action} {b : BunTest}
    (h : runs w fuel f.generateOrder.2 maxConcurrency actions = some b) : Attempts b where
  accepted n m g d a hnm hn hm ha := by
    have htold : Told b := told_of_moves (moves_runs f.toCollection h) (load_told f maxConcurrency)
    constructor
    · exact SameStart.retried
    · intro hretried
      obtain ⟨hcompleted, hrepeated⟩ := htold.accepts n m g d a hnm hn hm ha hretried
      exact ⟨hcompleted, hretried, hrepeated⟩
  refused w fuel data hvalid hdata := ⟨onUncaughtException_refused hvalid, step_refused w fuel hvalid hdata⟩

/-! A test with a retry. Its first attempt times out, and the promise of that attempt settles while the
second is waited for. -/

def retriedTest : ExecutionEntry := ⟨1, ⟨false, .normal, .no, true⟩, true, 5, false, 0, .collection, 1, 0, none⟩

def retriedFile : File where
  rootScope := ⟨⟨false, .normal, .no, true⟩, [.testCallback retriedTest], [], [], [], [], false⟩
  hookScope := ⟨⟨false, .normal, .no, false⟩, [], [], [], [], [], false⟩
  first := true
  last := true
  hasFilter := false
  randomize := none
  distinct := by decide

def lateWorld : World where
  now tick := tick * 10000000
  callback _ := ⟨[], false⟩

theorem runs_attempts_example :
    Attempts ((runs lateWorld 10 retriedFile.generateOrder.2 20 [.timer, .addResult (.queued 2), .run]).get (by decide)) :=
  runs_attempts retriedFile (Option.some_get _).symm

/-- The result of the attempt that timed out completes the second one: the test passes. -/
theorem late_result_completes_retry : ∃ b d a,
    runs lateWorld 10 retriedFile.generateOrder.2 20 [.timer, .addResult (.queued 2), .run] = some b ∧
      b.log[2]? = some (.callbackQueued (.execution 0 (some d))) ∧
      b.log[9]? = some (.accepted (.execution 0 (some d))) ∧ b.execution.groups[0]? = some a ∧
      ¬ SameStart b.log 2 9 (d.place a) ∧
      ∃ s, b.execution.sequences[d.place a]? = some s ∧ s.result = .pass := by
  refine ⟨_, _, _, rfl, rfl, rfl, rfl, ?_, _, rfl, rfl⟩
  intro h
  exact h.retried (List.mem_of_getElem? (i := 2) rfl)

end BunTest

end Funbun.TestRunner
