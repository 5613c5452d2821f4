import Mathlib.Data.List.Basic

/-! Machines that read their input as it comes.

A step takes elements from the front of the input. It goes on, it waits for more than there is, or it stops for good.
A machine resumes if what it does does not depend on where its input was cut. -/
namespace Funbun.Library
variable {σ α β : Type}

/-- What a step comes to -/
inductive Progress (σ α : Type) where
  | next (state : σ) (rest : List α)
  | wait (state : σ)
  | stop (state : σ)

namespace Progress

def map (f : σ → β) : Progress σ α → Progress β α
  | next state rest => next (f state) rest
  | wait state => wait (f state)
  | stop state => stop (f state)

/-- The state, unless the machine stopped -/
def All (P : σ → Prop) : Progress σ α → Prop
  | next state _ | wait state => P state
  | stop _ => True

end Progress

variable {step : σ → List α → Progress σ α} {measure : σ → List α → Nat}

/-- Steps, until one waits or stops -/
def drive (step : σ → List α → Progress σ α) : Nat → σ → List α → Progress σ α
  | 0, s, data => .next s data
  | fuel + 1, s, data =>
    match step s data with
    | .next s' rest => drive step fuel s' rest
    | .wait s' => .wait s'
    | .stop s' => .stop s'

/-- Every step that goes on makes the measure smaller. -/
def Progresses (step : σ → List α → Progress σ α) (measure : σ → List α → Nat) : Prop :=
  ∀ s data s' rest, step s data = .next s' rest → measure s' rest < measure s data

/-- The machine, with as much fuel as it can use -/
def finish (step : σ → List α → Progress σ α) (measure : σ → List α → Nat) (s : σ) (data : List α) : Progress σ α :=
  drive step (measure s data + 1) s data

theorem drive_succ (fuel : Nat) (s : σ) (data : List α) :
    drive step (fuel + 1) s data =
      match step s data with
      | .next s' rest => drive step fuel s' rest
      | .wait s' => .wait s'
      | .stop s' => .stop s' := rfl

theorem drive_fuel (h : Progresses step measure) : ∀ (n m : Nat) (s : σ) (data : List α),
    measure s data < n → measure s data < m → drive step n s data = drive step m s data := by
  intro n
  induction n with
  | zero => exact fun m s data hn => absurd hn (Nat.not_lt_zero _)
  | succ n ih =>
    intro m s data hn hm
    cases m with
    | zero => exact absurd hm (Nat.not_lt_zero _)
    | succ m =>
      rw [drive_succ, drive_succ]
      cases hstep : step s data with
      | next s' rest =>
        have hlt := h s data s' rest hstep
        exact ih m s' rest (by omega) (by omega)
      | wait s' => rfl
      | stop s' => rfl

variable {s s' : σ} {data : List α} {inv : σ → Prop}

theorem finish_next (h : Progresses step measure) {data rest : List α} (hstep : step s data = .next s' rest) :
    finish step measure s data = finish step measure s' rest := by
  show drive step (measure s data + 1) s data = _
  rw [drive_succ, hstep]
  exact drive_fuel h _ _ _ _ (h s data s' rest hstep) (Nat.lt_succ_self _)

theorem finish_wait (hstep : step s data = .wait s') :
    finish step measure s data = .wait s' := by
  show drive step (measure s data + 1) s data = _
  rw [drive_succ, hstep]

theorem finish_stop (hstep : step s data = .stop s') :
    finish step measure s data = .stop s' := by
  show drive step (measure s data + 1) s data = _
  rw [drive_succ, hstep]

/-- What the first step decides -/
theorem finish_congr (h : Progresses step measure) {s t : σ} {a b : List α} (hstep : step s a = step t b) :
    finish step measure s a = finish step measure t b := by
  cases ht : step t b with
  | next s' rest => rw [finish_next h ht, finish_next h (hstep.trans ht)]
  | wait s' => rw [finish_wait ht, finish_wait (hstep.trans ht)]
  | stop s' => rw [finish_stop ht, finish_stop (hstep.trans ht)]

theorem finish_induction (h : Progresses step measure) {P : σ → List α → Prop}
    (hnext : ∀ s data s' rest, step s data = .next s' rest → P s' rest → P s data)
    (hwait : ∀ s data s', step s data = .wait s' → P s data)
    (hstop : ∀ s data s', step s data = .stop s' → P s data) : ∀ s data, P s data := by
  intro s data
  induction hm : measure s data using Nat.strongRecOn generalizing s data with
  | _ m ih =>
    cases hstep : step s data with
    | next s' rest => exact hnext s data s' rest hstep (ih _ (hm ▸ h s data s' rest hstep) s' rest rfl)
    | wait s' => exact hwait s data s' hstep
    | stop s' => exact hstop s data s' hstep

/-- What becomes of a step when there is more input: nothing changes in one that did not wait for it. One that waited is
taken up again. Its element was complete, or the step is made again with what came. -/
def Progress.With (step : σ → List α → Progress σ α) (fine : σ → Prop) (more : List α) : Progress σ α → Progress σ α → Prop
  | next s rest, longer => longer = .next s (rest ++ more)
  | wait s, longer => fine s → longer = step s more ∨ longer = .next s more
  | stop s, longer => longer = .stop s

structure Resumes (step : σ → List α → Progress σ α) (inv fine : σ → Prop) : Prop where
  keeps : ∀ s data, inv s → (step s data).All inv
  longer : ∀ s data more, inv s → more ≠ [] → (step s data).With step fine more (step s (data ++ more))

section
variable {inv fine : σ → Prop} {s t : σ} {data more : List α} (h : Resumes step inv fine) (hm : Progresses step measure)
include h hm

/-- Input that comes behind a stop is not read. Where the machine waited it goes on with it. -/
theorem Resumes.finish_append (hs : inv s) (hmore : more ≠ []) (t : σ) :
    (finish step measure s data = .stop t → finish step measure s (data ++ more) = .stop t) ∧
      (finish step measure s data = .wait t → fine t →
        finish step measure s (data ++ more) = finish step measure t more) := by
  revert hs
  apply finish_induction hm (P := fun s data => inv s →
    (finish step measure s data = .stop t → finish step measure s (data ++ more) = .stop t) ∧
      (finish step measure s data = .wait t → fine t →
        finish step measure s (data ++ more) = finish step measure t more))
  · intro s data s' rest hstep ih hs
    have hlonger := h.longer s data more hs hmore
    have hkept := h.keeps s data hs
    rw [hstep] at hlonger hkept
    rw [finish_next hm hlonger, finish_next hm hstep]
    exact ih hkept
  · intro s data s' hstep hs
    have hlonger := h.longer s data more hs hmore
    rw [hstep] at hlonger
    rw [finish_wait hstep]
    refine ⟨fun hstop => (by cases hstop), fun hwait ht => ?_⟩
    cases hwait
    rcases hlonger ht with hagain | hdone
    · exact finish_congr hm hagain
    · exact finish_next hm hdone
  · intro s data s' hstep hs
    have hlonger := h.longer s data more hs hmore
    rw [hstep] at hlonger
    rw [finish_stop hlonger, finish_stop hstep]
    exact ⟨id, fun hwait => (by cases hwait)⟩

end

/-- The machine never runs out of fuel. -/
theorem finish_ne_next (h : Progresses step measure) (s t : σ) (data rest : List α) :
    finish step measure s data ≠ .next t rest := by
  apply finish_induction h (P := fun s data => finish step measure s data ≠ .next t rest)
  · intro s data s' rest' hstep ih
    rw [finish_next h hstep]
    exact ih
  · intro s data s' hstep
    rw [Library.finish_wait hstep]
    intro he
    cases he
  · intro s data s' hstep
    rw [Library.finish_stop hstep]
    intro he
    cases he

theorem finish_keeps (h : Progresses step measure) (hkeeps : ∀ s data, inv s → (step s data).All inv) :
    ∀ s data, inv s → (finish step measure s data).All inv := by
  apply finish_induction h (P := fun s data => inv s → (finish step measure s data).All inv)
  · intro s data s' rest hstep ih hs
    have hs' := hkeeps s data hs
    rw [hstep] at hs'
    rw [finish_next h hstep]
    exact ih hs'
  · intro s data s' hstep hs
    have hs' := hkeeps s data hs
    rw [finish_wait hstep, ← hstep]
    exact hs'
  · intro s data s' hstep hs
    rw [finish_stop hstep]
    trivial

/-- **What a machine does not read.** States that look the same come to what looks the same. -/
theorem finish_same (h : Progresses step measure) {look : σ → β} (hkeeps : ∀ s data, inv s → (step s data).All inv)
    (hsame : ∀ s t data, inv s → inv t → look s = look t → (step s data).map look = (step t data).map look) :
    ∀ s data t, inv s → inv t → look s = look t →
      (finish step measure s data).map look = (finish step measure t data).map look := by
  apply finish_induction h (P := fun s data => ∀ t, inv s → inv t → look s = look t →
    (finish step measure s data).map look = (finish step measure t data).map look)
  · intro s data s' rest hstep ih t hs ht hlook
    have heq := hsame s t data hs ht hlook
    rw [hstep] at heq
    cases htstep : step t data with
    | next t' rest' =>
      rw [htstep] at heq
      simp only [Progress.map, Progress.next.injEq] at heq
      obtain ⟨hlook', rfl⟩ := heq
      rw [finish_next h hstep, finish_next h htstep]
      have hs' := hkeeps s data hs
      have ht' := hkeeps t data ht
      rw [hstep] at hs'
      rw [htstep] at ht'
      exact ih t' hs' ht' hlook'
    | wait t' => rw [htstep] at heq; cases heq
    | stop t' => rw [htstep] at heq; cases heq
  · intro s data s' hstep t hs ht hlook
    have heq := hsame s t data hs ht hlook
    rw [hstep] at heq
    cases htstep : step t data with
    | next t' rest' => rw [htstep] at heq; cases heq
    | wait t' => rw [finish_wait hstep, finish_wait htstep, ← htstep, ← heq]
    | stop t' => rw [htstep] at heq; cases heq
  · intro s data s' hstep t hs ht hlook
    have heq := hsame s t data hs ht hlook
    rw [hstep] at heq
    cases htstep : step t data with
    | next t' rest' => rw [htstep] at heq; cases heq
    | wait t' => rw [htstep] at heq; cases heq
    | stop t' => rw [finish_stop hstep, finish_stop htstep, ← htstep, ← heq]

/-! ### Segments -/

/-- **A stream in segments, or in one piece.** Enough is that two segments may be joined. -/
theorem foldl_flatten {handle : σ → List α → σ} {inv fine : σ → Prop} {seen : σ → β}
    (hinv : ∀ s x, inv s → inv (handle s x))
    (hjoin : ∀ s x y, inv s → x ≠ [] → y ≠ [] → fine (handle s x) → seen (handle s (x ++ y)) = seen (handle (handle s x) y)) :
    ∀ (segments : List (List α)) (s : σ), inv s → segments ≠ [] → (∀ segment ∈ segments, segment ≠ []) →
      (∀ k < segments.length, fine ((segments.take k).foldl handle s)) →
      seen (segments.foldl handle s) = seen (handle s segments.flatten) := by
  intro segments
  induction segments with
  | nil => exact fun _ _ h => absurd rfl h
  | cons x segments ih =>
    intro s hs _ hne hfine
    have hx : x ≠ [] := hne x List.mem_cons_self
    have htail : ∀ segment ∈ segments, segment ≠ [] := fun segment h => hne segment (List.mem_cons_of_mem x h)
    show seen (segments.foldl handle (handle s x)) = seen (handle s (x ++ segments.flatten))
    cases hseg : segments with
    | nil => rw [List.flatten_nil, List.append_nil]; rfl
    | cons y rest =>
      rw [← hseg, ih (handle s x) (hinv s x hs) (by rw [hseg]; exact List.cons_ne_nil y rest) htail]
      · refine (hjoin s x _ hs hx ?_ ?_).symm
        · rw [hseg]
          exact List.append_ne_nil_of_left_ne_nil (htail y (hseg ▸ List.mem_cons_self)) _
        · exact hfine 1 (by rw [hseg, List.length_cons, List.length_cons]; omega)
      · intro k hk
        exact hfine (k + 1) (by rw [List.length_cons]; omega)

/-! ### Machines that come to a state -/

/-- Some steps come to a state, with what is left of the input. The last one may wait, where nothing is left. -/
def Comes (step : σ → List α → Progress σ α) (s : σ) (data : List α) (t : σ) (rest : List α) : Prop :=
  ∃ n, drive step n s data = .next t rest ∨ (rest = [] ∧ drive step n s data = .wait t)

theorem drive_add (n m : Nat) (s : σ) (data : List α) :
    drive step (n + m) s data =
      match drive step n s data with
      | .next t rest => drive step m t rest
      | .wait t => .wait t
      | .stop t => .stop t := by
  induction n generalizing s data with
  | zero => rw [Nat.zero_add]; rfl
  | succ n ih =>
    rw [Nat.add_right_comm, drive_succ, drive_succ]
    cases step s data with
    | next s' rest => exact ih s' rest
    | wait s' => rfl
    | stop s' => rfl

namespace Comes
variable {s t u : σ} {data rest rest' : List α}

theorem same : Comes step s data s data := ⟨0, .inl rfl⟩

theorem of_next (h : step s data = .next t rest) : Comes step s data t rest :=
  ⟨1, .inl (by rw [drive_succ, h]; rfl)⟩

theorem of_wait (h : step s data = .wait t) : Comes step s data t [] :=
  ⟨1, .inr ⟨rfl, by rw [drive_succ, h]⟩⟩

/-- A machine that waits without input has to be where its next steps begin. -/
theorem trans (hidle : step t [] = .wait t) (h : Comes step s data t rest) (h' : Comes step t rest u rest') :
    Comes step s data u rest' := by
  obtain ⟨n, hn⟩ := h
  obtain ⟨m, hm⟩ := h'
  rcases hn with hnext | ⟨hrest, hwait⟩
  · exact ⟨n + m, by rw [drive_add, hnext]; exact hm⟩
  · subst hrest
    cases m with
    | zero =>
      rcases hm with hm | ⟨_, hm⟩
      · cases hm
        exact ⟨n, .inr ⟨rfl, hwait⟩⟩
      · cases hm
    | succ m =>
      rw [drive_succ, hidle] at hm
      rcases hm with hm | ⟨hrest, hm⟩
      · cases hm
      · cases hm
        exact ⟨n, .inr ⟨hrest, hwait⟩⟩

/-- The first step goes on. -/
theorem next (h : step s data = .next t rest) (h' : Comes step t rest u rest') : Comes step s data u rest' := by
  obtain ⟨n, hn⟩ := h'
  exact ⟨n + 1, by rw [drive_succ, h]; exact hn⟩

theorem finish_wait (hm : Progresses step measure) (hidle : step t [] = .wait t) (h : Comes step s data t []) :
    finish step measure s data = .wait t := by
  obtain ⟨n, hn⟩ := h
  induction n generalizing s data with
  | zero =>
    rcases hn with hn | ⟨_, hn⟩
    · cases hn
      exact Library.finish_wait hidle
    · cases hn
  | succ n ih =>
    rw [drive_succ] at hn
    cases hstep : step s data with
    | next s' rest =>
      rw [hstep] at hn
      rw [finish_next hm hstep]
      exact ih hn
    | wait s' =>
      rw [hstep] at hn
      rcases hn with hn | ⟨_, hn⟩
      · cases hn
      · cases hn
        exact Library.finish_wait hstep
    | stop s' =>
      rw [hstep] at hn
      rcases hn with hn | ⟨_, hn⟩ <;> cases hn

end Comes

/-! ### Machines that are watched -/

section
variable {recorder : β → List α → Progress β α} {f : β → σ}

theorem drive_map (h : ∀ b data, (recorder b data).map f = step (f b) data) (n : Nat) (b : β) (data : List α) :
    (drive recorder n b data).map f = drive step n (f b) data := by
  induction n generalizing b data with
  | zero => rfl
  | succ n ih =>
    rw [drive_succ, drive_succ, ← h b data]
    cases recorder b data with
    | next b' rest => exact ih b' rest
    | wait b' => rfl
    | stop b' => rfl

theorem Progresses.watched (hm : Progresses step measure) (h : ∀ b data, (recorder b data).map f = step (f b) data) :
    Progresses recorder fun b => measure (f b) := by
  intro b data b' rest hstep
  apply hm (f b) data (f b') rest
  rw [← h b data, hstep]
  rfl

/-- What is recorded of a machine does not change what it does. -/
theorem finish_map (h : ∀ b data, (recorder b data).map f = step (f b) data) (b : β) (data : List α) :
    (finish recorder (fun b => measure (f b)) b data).map f = finish step measure (f b) data :=
  drive_map h _ b data

end

end Funbun.Library
