import Funbun.Library.Checked

/-! Loops of programs that may stop. A turn goes on or is done. -/
namespace Funbun.Library
variable {σ α : Type}

/-- `a - b`, for a type without negative numbers -/
def subFrom (a b : Nat) : Checked Nat := if b ≤ a then .ok (a - b) else .error .overflow

theorem subFrom_ok {a b : Nat} (h : b ≤ a) : subFrom a b = .ok (a - b) := if_pos h

/-- What a turn of a loop comes to -/
inductive Turn (σ α : Type) where
  | next (s : σ)
  | done (a : α)

/-- Going on in a state, or done with a result -/
def Turn.All (P : σ → Prop) (Q : α → Prop) : Turn σ α → Prop
  | next s => P s
  | done a => Q a

/-- So many turns at most -/
def loop (turn : σ → Checked (Turn σ α)) : Nat → σ → Checked α
  | 0, _ => .error .fuel
  | n + 1, s => do
    match ← turn s with
    | .next s => loop turn n s
    | .done a => return a

variable {turn : σ → Checked (Turn σ α)} {s : σ} {a : α}

theorem loop_next {s s' : σ} (h : turn s = .ok (.next s')) (n : Nat) :
    loop turn (n + 1) s = loop turn n s' := by
  rw [loop, h]
  rfl

theorem loop_done (h : turn s = .ok (.done a)) (n : Nat) :
    loop turn (n + 1) s = .ok a := by
  rw [loop, h]
  rfl

theorem loop_error {fault : Fault} (h : turn s = .error fault) (n : Nat) :
    loop turn (n + 1) s = .error fault := by
  rw [loop, h]
  rfl

/-- A loop that returns has made its first turn. -/
theorem turn_of_loop {n : Nat} (h : loop turn n s = .ok a) :
    turn s = .ok (.done a) ∨ ∃ s' n', n = n' + 1 ∧ turn s = .ok (.next s') ∧ loop turn n' s' = .ok a := by
  cases n with
  | zero => cases h
  | succ n =>
    cases hturn : turn s with
    | error fault => rw [loop_error hturn] at h; cases h
    | ok t =>
      cases t with
      | next s' =>
        rw [loop_next hturn] at h
        exact .inr ⟨s', n, rfl, rfl, h⟩
      | done b =>
        rw [loop_done hturn] at h
        cases h
        exact .inl rfl

/-- More turns than are needed do not matter. -/
theorem loop_mono : ∀ {n m : Nat} {s : σ}, loop turn n s = .ok a → n ≤ m →
    loop turn m s = .ok a
  | 0, _, _, h, _ => by cases h
  | n + 1, m, s, h, hle => by
    obtain ⟨m, rfl⟩ : ∃ k, m = k + 1 := ⟨m - 1, by omega⟩
    rcases turn_of_loop h with hdone | ⟨s', n', hn, hnext, hloop⟩
    · exact loop_done hdone m
    · cases hn
      exact (loop_next hnext m).trans (loop_mono hloop (Nat.le_of_succ_le_succ hle))

/-- The same result, unless there were not enough turns -/
def Later (a b : Checked α) : Prop := a = .error .fuel ∨ a = b

namespace Later
variable {β : Type}

theorem refl (a : Checked α) : Later a a := .inr rfl

theorem bind {a b : Checked α} {f g : α → Checked β} (h : Later a b) (hf : ∀ a, Later (f a) (g a)) :
    Later (a >>= f) (b >>= g) := by
  rcases h with rfl | rfl
  · exact .inl rfl
  · cases a with
    | error fault => exact .refl _
    | ok a => exact hf a

end Later

theorem loop_later (turn : σ → Checked (Turn σ α)) (n m : Nat) (s : σ) : Later (loop turn n s) (loop turn (n + m) s) := by
  induction n generalizing s with
  | zero => exact .inl rfl
  | succ n ih =>
    rw [Nat.add_right_comm, loop, loop]
    refine (Later.refl (turn s)).bind fun t => ?_
    cases t with
    | next s' => exact ih s'
    | done a => exact .refl _

/-- The program does not stop, but for want of turns. -/
def NoFault (x : Checked α) : Prop := ∀ fault, x = .error fault → fault = .fuel

theorem noFault_ok (a : α) : NoFault (.ok a) := nofun

theorem noFault_error {fault : Fault} : NoFault (.error fault : Checked α) ↔ fault = .fuel := by
  constructor
  · exact fun h => h fault rfl
  · rintro rfl fault h
    cases h
    rfl

theorem NoFault.of_later {a b : Checked α} (h : NoFault b) (hlater : Later a b) : NoFault a := by
  rcases hlater with rfl | rfl
  · exact noFault_error.2 rfl
  · exact h

section
variable {turn : σ → Checked (Turn σ α)} (inv : σ → Prop) (measure : σ → Nat) {Q : α → Prop}

/-- **The rule of a loop**: each turn keeps the invariant and makes the measure smaller, or is done. -/
theorem loop_returns (hturn : ∀ s, inv s → Returns (turn s) (Turn.All (fun s' => inv s' ∧ measure s' < measure s) Q)) :
    ∀ {n : Nat} {s : σ}, inv s → measure s < n → Returns (loop turn n s) Q := by
  intro n
  induction n with
  | zero => exact fun _ hn => absurd hn (Nat.not_lt_zero _)
  | succ n ih =>
    intro s hs hn
    refine (hturn s hs).bind ?_
    intro t ht
    cases t with
    | next s' => exact ih ht.1 (by have := ht.2; omega)
    | done a => exact .ok ht

/-- A loop whose turns do not stop does not stop. -/
theorem loop_noFault (hturn : ∀ s, inv s → Returns (turn s) (Turn.All inv fun _ => True)) (n : Nat) {s : σ} (hs : inv s) :
    NoFault (loop turn n s) := by
  induction n generalizing s with
  | zero => exact noFault_error.2 rfl
  | succ n ih =>
    obtain ⟨t, ht, hall⟩ := hturn s hs
    cases t with
    | next s' =>
      rw [loop_next ht]
      exact ih hall
    | done a =>
      rw [loop_done ht]
      exact noFault_ok a

end

/-- A fold keeps what its steps keep. -/
theorem foldlM_keeps {σ α ε : Type} {P : σ → Prop} {f : σ → α → Except ε σ} (hf : ∀ s x s', P s → f s x = .ok s' → P s') :
    ∀ {xs : List α} {s s' : σ}, P s → xs.foldlM f s = .ok s' → P s'
  | [], s, s', hs, h => by
    cases h
    exact hs
  | x :: xs, s, s', hs, h => by
    rw [List.foldlM_cons] at h
    obtain ⟨t, ht, h⟩ := bind_eq_ok.1 h
    exact foldlM_keeps hf (hf s x t hs ht) h

/-- A fold stops only as its steps do. -/
theorem foldlM_ne_error {α σ ε : Type} {f : σ → α → Except ε σ} {err : ε} (h : ∀ s a, f s a ≠ .error err) (as : List α) (s : σ) :
    as.foldlM f s ≠ .error err := by
  induction as generalizing s with
  | nil => exact nofun
  | cons a as ih =>
    rw [List.foldlM_cons]
    cases hstep : f s a with
    | error err' =>
      intro heq
      cases heq
      exact h s a hstep
    | ok s' => exact ih s'

end Funbun.Library
