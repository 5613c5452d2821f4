import Funbun.Library.Ahead
import Funbun.Sql.Requests

/-! The responses of a MySQL connection go to the requests they answer.

The commands that are not answered are those of the running requests, or the one prepare that
is under way: `Inv`. It holds of the queue whatever native code is doing. A request is run where nothing
pending stands before it, by `advance` as its loop goes (`Placed`), and by `do_run` under a condition. -/
namespace Funbun.Sql
open Library (Ahead forall_mem_replace)
variable {σ : Type}

namespace Query

/-- The command a running request has written. -/
def command (q : Query σ) : Command σ := if q.simple then .query q.id else .execute q.id

/-- The statement a request is waiting for. -/
def preparing (statements : Statements σ) (q : Query σ) : Option σ :=
  if q.isBeingPrepared statements then q.statement else none

/-- The command of a request that its next packet answers. -/
def awaits (statements : Statements σ) (q : Query σ) : Option (Command σ) :=
  if q.isRunning then some q.command else (q.preparing statements).map .prepare

/-- What is true of a request in the queue. -/
structure Sound (statements : Statements σ) (q : Query σ) : Prop where
  simple : q.simple = true → q.statement = none
  pending : q.isPending = true → q.pipelined = false
  running : q.isRunning = true → q.pipelined = !q.simple
  prepared : q.isRunning = true → q.simple = false → ∃ s, q.statement = some s ∧ statements s = some .prepared

variable {q : Query σ}

theorem isRunning_false_of_isPending (h : q.isPending = true) : q.isRunning = false := by
  cases hs : q.status <;> simp_all [isPending, isRunning]

theorem isPending_false_of_isRunning (h : q.isRunning = true) : q.isPending = false := by
  cases hs : q.status <;> simp_all [isPending, isRunning]

theorem isCompleted_false_of_isPending (h : q.isPending = true) : q.isCompleted = false := by
  cases hs : q.status <;> simp_all [isPending, isCompleted]

theorem isCompleted_false_of_isRunning (h : q.isRunning = true) : q.isCompleted = false := by
  cases hs : q.status <;> simp_all [isRunning, isCompleted]

theorem of_isCompleted (h : q.isCompleted = true) : q.isPending = false ∧ q.isRunning = false := by
  cases hs : q.status <;> simp_all [isPending, isRunning, isCompleted]

theorem isPending_of (hrunning : q.isRunning = false) (hcompleted : q.isCompleted = false) :
    q.isPending = true := by
  cases hs : q.status <;> simp_all [isPending, isRunning, isCompleted]

theorem status_of_isPending : q.isPending = true ↔ q.status = .pending := by
  cases hs : q.status <;> simp [isPending, hs]

theorem isBeingPrepared_iff {statements : Statements σ} :
    q.isBeingPrepared statements = true ↔
      q.isPending = true ∧ ∃ s, q.statement = some s ∧ statements.parsing s = true := by
  simp [isBeingPrepared, Option.any_eq_true]

end Query

/-- What is true of the queue, the statements and the commands not answered, whatever native code is doing. -/
structure Inv (r : RequestQueue σ) (statements : Statements σ) (unanswered : List (Command σ)) : Prop where
  order : Ahead Query.isRunning Query.isPending r.requests
  simple_first : r.requests.Pairwise fun a b => a.isRunning = true → b.isRunning = true → b.simple = false
  sound : ∀ q ∈ r.requests, q.Sound statements
  pipelined : r.pipelinedRequests = (r.requests.countP fun q => q.isRunning && q.pipelined : Nat)
  nonpipelinable : r.nonpipelinableRequests = (r.requests.countP fun q => q.isRunning && !q.pipelined : Nat)
  ready : r.isReadyForQuery = true → r.nonpipelinableRequests = 0
  active : r.isReadyForQuery = false →
    (∃ q ∈ r.requests, q.isRunning = true) ∨ ∃ s, statements.parsing s = true
  waiting : r.waitingToPrepare = true → ∃ s, statements.parsing s = true
  answers : (∀ s, statements.parsing s = false) →
    unanswered = (r.requests.filter Query.isRunning).map Query.command
  preparing : ∀ s, statements.parsing s = true → r.isReadyForQuery = false ∧
    (∀ q ∈ r.requests, q.isRunning = false) ∧
    (∃ q, r.requests.find? Query.isPending = some q ∧ q.statement = some s) ∧ unanswered = [.prepare s]

theorem Query.Sound.mono {statements statements' : Statements σ} {q : Query σ} (h : q.Sound statements)
    (hprepared : ∀ s, statements s = some .prepared → statements' s = some .prepared) : q.Sound statements' :=
  ⟨h.simple, h.pending, h.running, fun hrun hsimple => (h.prepared hrun hsimple).imp fun s hs => ⟨hs.1, hprepared s hs.2⟩⟩

namespace RequestQueue

@[simp] theorem count_requests (q : Query σ) (n : Int) (r : RequestQueue σ) : (r.count q n).requests = r.requests := by
  unfold count
  split <;> rfl

@[simp] theorem count_ready (q : Query σ) (n : Int) (r : RequestQueue σ) :
    (r.count q n).isReadyForQuery = r.isReadyForQuery := by
  unfold count
  split <;> rfl

@[simp] theorem count_waiting (q : Query σ) (n : Int) (r : RequestQueue σ) :
    (r.count q n).waitingToPrepare = r.waitingToPrepare := by
  unfold count
  split <;> rfl

theorem count_pipelined (q : Query σ) (n : Int) (r : RequestQueue σ) :
    (r.count q n).pipelinedRequests = r.pipelinedRequests + if q.pipelined then n else 0 := by
  unfold count
  split <;> simp

theorem count_nonpipelinable (q : Query σ) (n : Int) (r : RequestQueue σ) :
    (r.count q n).nonpipelinableRequests = r.nonpipelinableRequests + if q.pipelined then 0 else n := by
  unfold count
  split <;> simp

end RequestQueue

namespace Statements

theorem parsing_set [DecidableEq σ] (statements : Statements σ) (s t : σ) (status : StatementStatus) :
    (statements.set s status).parsing t = if t = s then status.isParsing else statements.parsing t := by
  unfold parsing set
  by_cases h : t = s <;> simp [h]

theorem not_parsing {statements : Statements σ} {s : σ} {status : StatementStatus} (h : statements s = some status)
    (hs : status.isParsing = false) : statements.parsing s = false := by
  simp [parsing, h, hs]

theorem parsing_iff {statements : Statements σ} {s : σ} :
    statements.parsing s = true ↔ ∃ described, statements s = some (.parsing described) := by
  unfold parsing
  cases h : statements s with
  | none => simp
  | some status => cases status <;> simp [StatementStatus.isParsing]

end Statements

namespace Inv
variable {r : RequestQueue σ} {statements : Statements σ} {unanswered : List (Command σ)} {l₁ l₂ : List (Query σ)}
  {q q' : Query σ}

theorem parsing_unique (h : Inv r statements unanswered) {s t : σ} (hs : statements.parsing s = true)
    (ht : statements.parsing t = true) : s = t := by
  obtain ⟨_, _, ⟨p, hp, hps⟩, _⟩ := h.preparing s hs
  obtain ⟨_, _, ⟨p', hp', hpt⟩, _⟩ := h.preparing t ht
  rw [hp] at hp'
  injection hp' with hp'
  subst hp'
  rw [hps] at hpt
  exact Option.some.inj hpt

/-- Where the connection is ready nothing is being prepared. -/
theorem not_parsing (h : Inv r statements unanswered) (hready : r.isReadyForQuery = true) (s : σ) :
    statements.parsing s = false := by
  by_contra hs
  have hnot := (h.preparing s (by simpa using hs)).1
  rw [hready] at hnot
  cases hnot

/-- What ended at the front of the queue is of no account. -/
theorem drop_completed {l : List (Query σ)} (h : Inv {r with requests := l₁ ++ l} statements unanswered)
    (hl : ∀ x ∈ l₁, x.isCompleted = true) : Inv {r with requests := l} statements unanswered := by
  have hsub : l.Sublist (l₁ ++ l) := List.sublist_append_right l₁ l
  have hnone : ∀ x ∈ l₁, x.isPending = false ∧ x.isRunning = false := fun x hx => Query.of_isCompleted (hl x hx)
  have hcount : ∀ f : Query σ → Bool,
      (l₁ ++ l).countP (fun q => q.isRunning && f q) = l.countP fun q => q.isRunning && f q := by
    intro f
    rw [List.countP_append, List.countP_eq_zero.mpr fun x hx => by simp [(hnone x hx).2], Nat.zero_add]
  have hfind : (l₁ ++ l).find? Query.isPending = l.find? Query.isPending := by
    rw [List.find?_append, List.find?_eq_none.mpr fun x hx => by simp [(hnone x hx).1]]
    rfl
  have hfilter : (l₁ ++ l).filter Query.isRunning = l.filter Query.isRunning := by
    rw [List.filter_append, List.filter_eq_nil_iff.mpr fun x hx => by simp [(hnone x hx).2]]
    rfl
  refine ⟨h.order.sublist hsub, h.simple_first.sublist hsub, fun q hq => h.sound q (hsub.mem hq), ?_, ?_, h.ready, ?_,
    h.waiting, ?_, ?_⟩
  · rw [← hcount Query.pipelined]
    exact h.pipelined
  · rw [← hcount fun q => !q.pipelined]
    exact h.nonpipelinable
  · intro hready
    rcases h.active hready with ⟨q, hq, hrun⟩ | hparsing
    · rcases List.mem_append.mp hq with hq | hq
      · exact absurd hrun (by simp [(hnone q hq).2])
      · exact Or.inl ⟨q, hq, hrun⟩
    · exact Or.inr hparsing
  · intro hparsing
    rw [← hfilter]
    exact h.answers hparsing
  · intro s hs
    obtain ⟨hready, hrun, hfirst, hcmd⟩ := h.preparing s hs
    rw [hfind] at hfirst
    exact ⟨hready, fun q hq => hrun q (hsub.mem hq), hfirst, hcmd⟩

/-- A pending request that is not being prepared may be given a statement, or fail. -/
theorem replace (h : Inv {r with requests := l₁ ++ q :: l₂} statements unanswered) (hq : q.isPending = true)
    (hprepared : q.isBeingPrepared statements = false) (hrun : q'.isRunning = false) (hsound : q'.Sound statements) :
    Inv {r with requests := l₁ ++ q' :: l₂} statements unanswered := by
  have hqrun : q.isRunning = false := Query.isRunning_false_of_isPending hq
  have hcount : ∀ f : Query σ → Bool, (l₁ ++ q' :: l₂).countP (fun q => q.isRunning && f q) =
      (l₁ ++ q :: l₂).countP fun q => q.isRunning && f q := by
    intro f
    simp [List.countP_append, hrun, hqrun]
  have hmem : ∀ x, x.isRunning = true → x ∈ l₁ ++ q :: l₂ → x ∈ l₁ ++ q' :: l₂ := by
    intro x hx hxl
    rcases List.mem_append.mp hxl with hxl | hxl
    · exact List.mem_append_left _ hxl
    · rcases List.mem_cons.mp hxl with rfl | hxl
      · exact absurd hx (by simp [hqrun])
      · exact List.mem_append_right _ (List.mem_cons_of_mem _ hxl)
  refine ⟨h.order.replace (fun hx => absurd hx (by simp [hrun])) fun _ => h.order.none_behind hq, ?_, ?_, ?_, ?_,
    h.ready, ?_, h.waiting, ?_, ?_⟩
  · have hpair := h.simple_first
    simp only [List.pairwise_append, List.pairwise_cons, List.mem_cons] at hpair ⊢
    grind
  · exact forall_mem_replace h.sound hsound
  · rw [hcount]
    exact h.pipelined
  · rw [hcount fun q => !q.pipelined]
    exact h.nonpipelinable
  · intro hready
    rcases h.active hready with ⟨x, hx, hxrun⟩ | hparsing
    · exact Or.inl ⟨x, hmem x hxrun hx, hxrun⟩
    · exact Or.inr hparsing
  · intro hparsing
    have hall := h.answers hparsing
    simpa [List.filter_append, List.filter_cons, hrun, hqrun] using hall
  · intro s hs
    obtain ⟨hready, hnone, ⟨p, hp, hps⟩, hcmd⟩ := h.preparing s hs
    have hfront : l₁.find? Query.isPending = some p := by
      rw [List.find?_append] at hp
      cases hl : l₁.find? Query.isPending with
      | some p' => simpa [hl] using hp
      | none =>
        rw [hl, List.find?_cons_of_pos hq] at hp
        injection hp with hp
        subst hp
        rw [Query.isBeingPrepared_iff.mpr ⟨hq, s, hps, hs⟩] at hprepared
        cases hprepared
    refine ⟨hready, forall_mem_replace hnone hrun, ⟨p, ?_, hps⟩, hcmd⟩
    show (l₁ ++ q' :: l₂).find? Query.isPending = some p
    rw [List.find?_append, hfront]
    rfl

/-- The statements may change where nothing comes to be parsed and what is prepared stays so. -/
theorem congr_statements {statements' : Statements σ} (h : Inv r statements unanswered)
    (hparsing : ∀ s, statements'.parsing s = statements.parsing s)
    (hprepared : ∀ s, statements s = some .prepared → statements' s = some .prepared) :
    Inv r statements' unanswered := by
  refine ⟨h.order, h.simple_first, fun q hq => ?_, h.pipelined, h.nonpipelinable, h.ready, ?_, ?_, ?_, ?_⟩
  · exact (h.sound q hq).mono hprepared
  · simpa only [hparsing] using h.active
  · simpa only [hparsing] using h.waiting
  · simpa only [hparsing] using h.answers
  · simpa only [hparsing] using h.preparing

theorem add_pending (h : Inv r statements unanswered) (hq : q.isPending = true) (hsound : q.Sound statements) :
    Inv {r with requests := r.requests ++ [q]} statements unanswered := by
  have hrun : q.isRunning = false := Query.isRunning_false_of_isPending hq
  have hcount : ∀ f : Query σ → Bool, (r.requests ++ [q]).countP (fun q => q.isRunning && f q) =
      r.requests.countP fun q => q.isRunning && f q := by
    intro f
    simp [List.countP_append, hrun]
  refine ⟨h.order.concat fun hx => absurd hx (by simp [hrun]), ?_, ?_, ?_, ?_, h.ready, ?_, h.waiting, ?_, ?_⟩
  · refine List.pairwise_append.mpr ⟨h.simple_first, List.pairwise_singleton _ q, fun x _ y hy _ hyrun => ?_⟩
    rw [List.mem_singleton] at hy
    subst hy
    rw [hrun] at hyrun
    cases hyrun
  · intro x hx
    rcases List.mem_append.mp hx with hx | hx
    · exact h.sound x hx
    · rw [List.mem_singleton] at hx
      exact hx ▸ hsound
  · rw [hcount]
    exact h.pipelined
  · rw [hcount fun q => !q.pipelined]
    exact h.nonpipelinable
  · intro hready
    rcases h.active hready with ⟨x, hx, hxrun⟩ | hparsing
    · exact Or.inl ⟨x, List.mem_append_left _ hx, hxrun⟩
    · exact Or.inr hparsing
  · intro hparsing
    simpa [List.filter_append, hrun] using h.answers hparsing
  · intro s hs
    obtain ⟨hready, hnone, ⟨p, hp, hps⟩, hcmd⟩ := h.preparing s hs
    refine ⟨hready, ?_, ⟨p, ?_, hps⟩, hcmd⟩
    · intro x hx
      rcases List.mem_append.mp hx with hx | hx
      · exact hnone x hx
      · rw [List.mem_singleton] at hx
        exact hx ▸ hrun
    · show (r.requests ++ [q]).find? Query.isPending = some p
      rw [List.find?_append, hp]
      rfl

/-- Where a request is being prepared the flags are what `add` and `advance` make them. -/
theorem wait (h : Inv r statements unanswered) {s : σ} (hs : statements.parsing s = true) :
    Inv {r with isReadyForQuery := false, waitingToPrepare := true} statements unanswered :=
  ⟨h.order, h.simple_first, h.sound, h.pipelined, h.nonpipelinable, (fun hready => by cases hready),
    fun _ => Or.inr ⟨s, hs⟩, fun _ => ⟨s, hs⟩, h.answers, fun t ht => ⟨rfl, (h.preparing t ht).2⟩⟩

/-- A request is written: nothing is being prepared, and nothing pending stands before it. -/
theorem start (h : Inv {r with requests := l₁ ++ q :: l₂} statements unanswered) (hq : q.isPending = true)
    (hnone : ∀ s, statements.parsing s = false) (hbefore : ∀ x ∈ l₁, x.isPending = false)
    (hrun : q'.isRunning = true) (hsound : q'.Sound statements)
    (hsimple : q'.simple = true → ∀ x ∈ l₁, x.isRunning = false) :
    Inv ({r with requests := l₁ ++ q' :: l₂, isReadyForQuery := false}.count q' 1) statements
      (unanswered ++ [q'.command]) := by
  have hqrun : q.isRunning = false := Query.isRunning_false_of_isPending hq
  have hqp : q'.isPending = false := Query.isPending_false_of_isRunning hrun
  have hbehind : ∀ x ∈ l₂, x.isRunning = false := h.order.none_behind hq
  have hcount : ∀ f : Query σ → Bool, (l₁ ++ q' :: l₂).countP (fun q => q.isRunning && f q) =
      (l₁ ++ q :: l₂).countP (fun q => q.isRunning && f q) + if f q' then 1 else 0 := by
    intro f
    cases hf : f q' <;> simp [List.countP_append, hrun, hqrun, hf, Nat.add_assoc]
  refine ⟨?_, ?_, ?_, ?_, ?_, ?_, ?_, ?_, ?_, ?_⟩
  · rw [RequestQueue.count_requests]
    exact h.order.replace (fun _ => hbefore) fun hx => absurd hx (by simp [hqp])
  · rw [RequestQueue.count_requests]
    have hpair := h.simple_first
    simp only [List.pairwise_append, List.pairwise_cons, List.mem_cons] at hpair ⊢
    grind
  · rw [RequestQueue.count_requests]
    exact forall_mem_replace h.sound hsound
  · have hbase : r.pipelinedRequests = ((l₁ ++ q :: l₂).countP fun q => q.isRunning && q.pipelined : Nat) :=
      h.pipelined
    rw [RequestQueue.count_requests, hcount, RequestQueue.count_pipelined, Int.natCast_add, ← hbase]
    cases hp : q'.pipelined <;> rfl
  · have hbase : r.nonpipelinableRequests = ((l₁ ++ q :: l₂).countP fun q => q.isRunning && !q.pipelined : Nat) :=
      h.nonpipelinable
    rw [RequestQueue.count_requests, hcount fun q => !q.pipelined, RequestQueue.count_nonpipelinable, Int.natCast_add,
      ← hbase]
    cases hp : q'.pipelined <;> rfl
  · intro hready
    rw [RequestQueue.count_ready] at hready
    cases hready
  · intro _
    rw [RequestQueue.count_requests]
    exact Or.inl ⟨q', by simp, hrun⟩
  · intro hwait
    rw [RequestQueue.count_waiting] at hwait
    exact h.waiting hwait
  · intro hparsing
    have hall := h.answers hparsing
    have hl₂ : l₂.filter Query.isRunning = [] := List.filter_eq_nil_iff.mpr fun x hx => by simp [hbehind x hx]
    rw [RequestQueue.count_requests, hall]
    simp [List.filter_append, hrun, hqrun, hl₂]
  · intro s hs
    rw [hnone s] at hs
    cases hs

/-- Without running requests both counters are zero. -/
theorem none_running (h : Inv r statements unanswered) (hready : r.isReadyForQuery = true)
    (hzero : r.pipelinedRequests = 0) : ∀ q ∈ r.requests, q.isRunning = false := by
  have hpip := h.pipelined
  have hnon := h.nonpipelinable
  rw [hzero] at hpip
  rw [h.ready hready] at hnon
  have hp := List.countP_eq_zero.mp (Int.natCast_eq_zero.mp hpip.symm)
  have hn := List.countP_eq_zero.mp (Int.natCast_eq_zero.mp hnon.symm)
  intro q hq
  have h₁ := hp q hq
  have h₂ := hn q hq
  cases hrun : q.isRunning with
  | false => rfl
  | true => cases hpipelined : q.pipelined <;> simp [hrun, hpipelined] at h₁ h₂

/-- A statement is sent to be prepared, for the first pending request. -/
theorem prepare [DecidableEq σ] (h : Inv r statements unanswered) {s : σ} (hready : r.isReadyForQuery = true)
    (hzero : r.pipelinedRequests = 0)
    (hfirst : ∃ q, r.requests.find? Query.isPending = some q ∧ q.statement = some s)
    (hs : statements s ≠ some .prepared) :
    Inv {r with isReadyForQuery := false, waitingToPrepare := true} (statements.set s (.parsing false))
      (unanswered ++ [.prepare s]) := by
  have hnone := h.none_running hready hzero
  have hparsing : (statements.set s (.parsing false)).parsing s = true := by
    rw [Statements.parsing_set, if_pos rfl]
    rfl
  have hunanswered : unanswered = [] := by
    rw [h.answers (h.not_parsing hready), List.filter_eq_nil_iff.mpr fun q hq => by simp [hnone q hq]]
    rfl
  refine ⟨h.order, h.simple_first, fun q hq => (h.sound q hq).mono ?_, h.pipelined, h.nonpipelinable,
    (fun hready => by cases hready), fun _ => Or.inr ⟨s, hparsing⟩, fun _ => ⟨s, hparsing⟩, ?_, ?_⟩
  · intro t ht
    have hts : t ≠ s := fun hts => hs (hts ▸ ht)
    show (if t = s then some _ else statements t) = _
    rw [if_neg hts, ht]
  · intro hall
    rw [hall s] at hparsing
    cases hparsing
  · intro t ht
    have hts : t = s := by
      by_contra hts
      rw [Statements.parsing_set, if_neg hts, h.not_parsing hready t] at ht
      cases ht
    rw [hts, hunanswered]
    exact ⟨rfl, hnone, hfirst, rfl⟩

/-- The answer to a prepare has come. -/
theorem settle [DecidableEq σ] (h : Inv r statements unanswered) {s : σ} {status : StatementStatus}
    (hs : statements.parsing s = true) (hstatus : status.isParsing = false) :
    Inv {r with isReadyForQuery := true, waitingToPrepare := false} (statements.set s status) unanswered.tail := by
  obtain ⟨_, hnone, _, hcmd⟩ := h.preparing s hs
  have hparsing : ∀ t, (statements.set s status).parsing t = false := by
    intro t
    rw [Statements.parsing_set]
    split
    · exact hstatus
    · rename_i hts
      by_contra ht
      exact hts (h.parsing_unique (by simpa using ht) hs)
  have hnonpipelinable : r.nonpipelinableRequests = 0 := by
    rw [h.nonpipelinable, List.countP_eq_zero.mpr fun q hq => by simp [hnone q hq]]
    rfl
  refine ⟨h.order, h.simple_first, fun q hq => ⟨(h.sound q hq).simple, (h.sound q hq).pending, (h.sound q hq).running, ?_⟩,
    h.pipelined, h.nonpipelinable, fun _ => hnonpipelinable, (fun hready => by cases hready),
    (fun hwait => by cases hwait), ?_, ?_⟩
  · intro hrun
    rw [hnone q hq] at hrun
    cases hrun
  · intro _
    rw [hcmd, List.filter_eq_nil_iff.mpr fun q hq => by simp [hnone q hq]]
    rfl
  · intro t ht
    rw [hparsing t] at ht
    cases ht

/-- The request at the front has its last result. -/
theorem finish (h : Inv {r with requests := q :: l₂} statements unanswered) (hrun : q.isRunning = true)
    (hended : q'.isCompleted = true) (hsound : q'.Sound statements) :
    Inv ({r with requests := q' :: l₂, isReadyForQuery := true, waitingToPrepare := false}.count q (-1)) statements
      unanswered.tail := by
  obtain ⟨hp', hrun'⟩ := Query.of_isCompleted hended
  have hparsing : ∀ s, statements.parsing s = false := by
    intro s
    by_contra hs
    have hnone := (h.preparing s (by simpa using hs)).2.1 q List.mem_cons_self
    rw [hrun] at hnone
    cases hnone
  have hcount : ∀ f : Query σ → Bool, ((q :: l₂).countP fun q => q.isRunning && f q) =
      ((q' :: l₂).countP fun q => q.isRunning && f q) + if f q then 1 else 0 := by
    intro f
    cases hf : f q <;> simp [hrun, hrun', hf]
  have hpipelined : r.pipelinedRequests = ((q :: l₂).countP fun q => q.isRunning && q.pipelined : Nat) := h.pipelined
  have hnonpipelinable : r.nonpipelinableRequests = ((q :: l₂).countP fun q => q.isRunning && !q.pipelined : Nat) :=
    h.nonpipelinable
  have hpair := List.pairwise_cons.mp h.simple_first
  have hzero : (q' :: l₂).countP (fun q => q.isRunning && !q.pipelined) = 0 := by
    rw [List.countP_eq_zero]
    intro x hx
    rcases List.mem_cons.mp hx with rfl | hx
    · simp [hrun']
    · cases hxrun : x.isRunning with
      | false => simp
      | true => simp [(h.sound x (List.mem_cons_of_mem _ hx)).running hxrun, hpair.1 x hx hrun hxrun]
  rw [hcount, Int.natCast_add] at hpipelined
  rw [hcount fun q => !q.pipelined, hzero, Int.natCast_add] at hnonpipelinable
  refine ⟨?_, ?_, ?_, ?_, ?_, ?_, ?_, ?_, ?_, ?_⟩
  · rw [RequestQueue.count_requests]
    have horder : Ahead Query.isRunning Query.isPending ([] ++ q :: l₂) := h.order
    exact horder.replace (fun hx => absurd hx (by simp [hrun'])) fun hx => absurd hx (by simp [hp'])
  · rw [RequestQueue.count_requests]
    exact List.pairwise_cons.mpr ⟨fun x _ hx => absurd hx (by simp [hrun']), hpair.2⟩
  · rw [RequestQueue.count_requests]
    exact List.forall_mem_cons.mpr ⟨hsound, fun x hx => h.sound x (List.mem_cons_of_mem _ hx)⟩
  · rw [RequestQueue.count_requests, RequestQueue.count_pipelined]
    show r.pipelinedRequests + _ = _
    rw [hpipelined]
    cases q.pipelined
    · simp
    · exact Int.add_neg_cancel_right _ 1
  · rw [RequestQueue.count_requests, RequestQueue.count_nonpipelinable, hzero]
    show r.nonpipelinableRequests + _ = _
    rw [hnonpipelinable]
    cases q.pipelined <;> rfl
  · intro _
    rw [RequestQueue.count_nonpipelinable]
    show r.nonpipelinableRequests + _ = _
    rw [hnonpipelinable]
    cases q.pipelined <;> rfl
  · intro hready
    rw [RequestQueue.count_ready] at hready
    cases hready
  · intro hwait
    rw [RequestQueue.count_waiting] at hwait
    cases hwait
  · intro _
    rw [RequestQueue.count_requests, h.answers hparsing]
    simp [hrun, hrun']
  · intro s hs
    rw [hparsing s] at hs
    cases hs

/-- The request at the front has a result, and more are to come. -/
theorem more (h : Inv {r with requests := q :: l₂} statements unanswered) (hrun : q.isRunning = true)
    (hrun' : q'.isRunning = true) (hpipelined : q'.pipelined = q.pipelined)
    (hcmd : q'.command = q.command) (hsound : q'.Sound statements) :
    Inv {r with requests := q' :: l₂} statements unanswered := by
  have hq' : q'.isPending = false := Query.isPending_false_of_isRunning hrun'
  have hpair := List.pairwise_cons.mp h.simple_first
  refine ⟨?_, ?_, ?_, ?_, ?_, h.ready, fun _ => Or.inl ⟨q', List.mem_cons_self, hrun'⟩, h.waiting, ?_, ?_⟩
  · have horder : Ahead Query.isRunning Query.isPending ([] ++ q :: l₂) := h.order
    exact horder.replace (fun _ x hx => absurd hx List.not_mem_nil) fun hx => absurd hx (by simp [hq'])
  · exact List.pairwise_cons.mpr ⟨fun x hx _ => hpair.1 x hx hrun, hpair.2⟩
  · exact List.forall_mem_cons.mpr ⟨hsound, fun x hx => h.sound x (List.mem_cons_of_mem _ hx)⟩
  · have hcount := h.pipelined
    simpa [List.countP_cons, hrun, hrun', hpipelined] using hcount
  · have hcount := h.nonpipelinable
    simpa [List.countP_cons, hrun, hrun', hpipelined] using hcount
  · intro hparsing
    have hall := h.answers hparsing
    simpa [hrun, hrun', hcmd] using hall
  · intro s hs
    have hnone := (h.preparing s hs).2.1 q List.mem_cons_self
    rw [hrun] at hnone
    cases hnone

end Inv
end Funbun.Sql
