import Mathlib.Data.List.Basic

/-! Words in which a mark cancels the letter before it.

A mark cancels the nearest letter that remains. Where none remains, it is kept or dropped, as one likes. So the marks that
are kept are at the front, and nothing cancels them. -/
namespace Funbun.Library.Cancelling
variable {α : Type} (keep : Bool) (mark : α)

/-- So many marks, which are kept only if they may be, and then letters -/
structure Cancelled (k : Nat) (letters kept : List α) : Prop where
  eq : kept = List.replicate k mark ++ letters
  letters : mark ∉ letters
  marks : keep = false → k = 0

variable {keep mark} {k : Nat} {letters kept : List α}

theorem Cancelled.nil : Cancelled keep mark 0 [] [] := ⟨rfl, List.not_mem_nil, fun _ => rfl⟩

theorem Cancelled.letter (h : Cancelled keep mark k letters kept) {x : α} (hx : x ≠ mark) :
    Cancelled keep mark k (letters ++ [x]) (kept ++ [x]) := by
  refine ⟨by rw [h.eq, List.append_assoc], fun hmem => ?_, h.marks⟩
  rcases List.mem_append.1 hmem with hmem | hmem
  · exact h.letters hmem
  · exact hx (List.mem_singleton.1 hmem).symm

variable [DecidableEq α] (keep mark)

/-- Without the last letter that is no mark, if there is one -/
def cancelNearest (kept : List α) : Option (List α) :=
  if kept.any (· ≠ mark) then some (kept.reverse.eraseP (· ≠ mark)).reverse else none

def cancelStep (kept : List α) (x : α) : List α :=
  if x ≠ mark then kept ++ [x] else (cancelNearest mark kept).getD (if keep then kept ++ [mark] else kept)

def cancel (xs : List α) : List α := xs.foldl (cancelStep keep mark) []

variable {keep mark}

theorem cancelNearest_marks (k : Nat) : cancelNearest mark (List.replicate k mark) = none := by
  unfold cancelNearest
  simp

theorem cancelNearest_concat {x : α} (hx : x ≠ mark) : cancelNearest mark (kept ++ [x]) = some kept := by
  unfold cancelNearest
  simp [hx]

theorem cancelStep_letter {x : α} (hx : x ≠ mark) : cancelStep keep mark kept x = kept ++ [x] := if_pos hx

theorem cancelStep_mark : cancelStep keep mark kept mark =
    (cancelNearest mark kept).getD (if keep then kept ++ [mark] else kept) := if_neg (not_not_intro rfl)

theorem cancelStep_mark_concat {x : α} (hx : x ≠ mark) : cancelStep keep mark (kept ++ [x]) mark = kept := by
  rw [cancelStep_mark, cancelNearest_concat hx]
  rfl

theorem cancelStep_mark_marks (k : Nat) : cancelStep keep mark (List.replicate k mark) mark =
    List.replicate (if keep then k + 1 else k) mark := by
  rw [cancelStep_mark, cancelNearest_marks]
  cases keep with
  | true => exact (List.replicate_succ' ..).symm
  | false => rfl

/-! ### What cancelling comes to -/

/-- One step leaves the marks that are there. -/
theorem Cancelled.step (h : Cancelled keep mark k letters kept) (x : α) :
    ∃ k' letters', k ≤ k' ∧ Cancelled keep mark k' letters' (cancelStep keep mark kept x) := by
  by_cases hx : x = mark
  · subst hx
    rcases List.eq_nil_or_concat letters with rfl | ⟨init, y, rfl⟩
    · obtain ⟨heq, -, hmarks⟩ := h
      rw [List.append_nil] at heq
      rw [heq, cancelStep_mark_marks]
      refine ⟨_, [], ?_, (List.append_nil _).symm, List.not_mem_nil, fun hkeep => ?_⟩
      · split
        · exact Nat.le_succ k
        · exact Nat.le_refl k
      · simpa [hkeep] using hmarks hkeep
    · rw [List.concat_eq_append] at h
      have hy : y ≠ x := fun hy => h.letters (by rw [hy]; exact List.mem_append_right _ (List.mem_singleton_self x))
      rw [h.eq, ← List.append_assoc, cancelStep_mark_concat hy]
      exact ⟨k, init, Nat.le_refl k, rfl, fun hmem => h.letters (List.mem_append_left _ hmem), h.marks⟩
  · rw [cancelStep_letter hx]
    exact ⟨k, letters ++ [x], Nat.le_refl k, h.letter hx⟩

theorem Cancelled.foldl (h : Cancelled keep mark k letters kept) (xs : List α) :
    ∃ k' letters', k ≤ k' ∧ Cancelled keep mark k' letters' (xs.foldl (cancelStep keep mark) kept) := by
  induction xs generalizing k letters kept with
  | nil => exact ⟨k, letters, Nat.le_refl k, h⟩
  | cons x xs ih =>
    obtain ⟨k', letters', hle, h'⟩ := h.step x
    obtain ⟨k'', letters'', hle', h''⟩ := ih h'
    exact ⟨k'', letters'', Nat.le_trans hle hle', h''⟩

variable (keep mark) in
theorem cancelled_cancel (xs : List α) : ∃ k letters, Cancelled keep mark k letters (cancel keep mark xs) := by
  obtain ⟨k, letters, -, h⟩ := (@Cancelled.nil α keep mark).foldl xs
  exact ⟨k, letters, h⟩

/-- Letters are kept. -/
theorem foldl_cancelStep_letters : ∀ {letters kept : List α}, mark ∉ letters →
    letters.foldl (cancelStep keep mark) kept = kept ++ letters
  | [], kept, _ => (List.append_nil kept).symm
  | x :: letters, kept, h => by
    have hx : x ≠ mark := fun hx => h (hx ▸ List.mem_cons_self)
    rw [List.foldl_cons, cancelStep_letter hx, foldl_cancelStep_letters fun hmem => h (List.mem_cons_of_mem x hmem),
      List.append_assoc, List.singleton_append]

/-- Marks with nothing before them are kept, if they may be. -/
theorem cancel_marks (hmarks : keep = false → k = 0) : cancel keep mark (List.replicate k mark) = List.replicate k mark := by
  unfold cancel
  induction k with
  | zero => rfl
  | succ k ih =>
    cases keep with
    | false => cases hmarks rfl
    | true =>
      have hih := ih fun h => by cases h
      rw [List.replicate_succ', List.foldl_append, hih, List.foldl_cons, List.foldl_nil, cancelStep_mark_marks, if_pos rfl,
        List.replicate_succ']

theorem Cancelled.cancel_eq (h : Cancelled keep mark k letters kept) : cancel keep mark kept = kept := by
  have hmarks : cancel keep mark (List.replicate k mark) = List.replicate k mark := cancel_marks h.marks
  unfold cancel at hmarks ⊢
  rw [h.eq, List.foldl_append, hmarks, foldl_cancelStep_letters h.letters]

/-- What is left has nothing to cancel. -/
theorem cancel_cancel (xs : List α) : cancel keep mark (cancel keep mark xs) = cancel keep mark xs := by
  obtain ⟨k, letters, h⟩ := cancelled_cancel keep mark xs
  exact h.cancel_eq

/-- The marks that are kept are at the front, and stay there, whatever comes behind them. -/
theorem marks_stay (xs ys : List α) : ∃ k letters, cancel keep mark xs = List.replicate k mark ++ letters ∧ mark ∉ letters ∧
    List.replicate k mark <+: cancel keep mark (xs ++ ys) := by
  obtain ⟨k, letters, h⟩ := cancelled_cancel keep mark xs
  obtain ⟨k', letters', hle, h'⟩ := h.foldl ys
  have happend : cancel keep mark (xs ++ ys) = ys.foldl (cancelStep keep mark) (cancel keep mark xs) := List.foldl_append ..
  refine ⟨k, letters, h.eq, h.letters, List.replicate (k' - k) mark ++ letters', ?_⟩
  rw [happend, h'.eq, ← List.append_assoc, List.replicate_append_replicate, Nat.add_sub_cancel' hle]

theorem mem_of_mem_cancel {xs : List α} : ∀ {x : α}, x ∈ cancel keep mark xs → x ∈ xs := by
  have hstep : ∀ {kept : List α} {y x : α}, x ∈ cancelStep keep mark kept y → x ∈ kept ∨ x = y := by
    intro kept y x hx
    by_cases hy : y = mark
    · subst hy
      rw [cancelStep_mark] at hx
      unfold cancelNearest at hx
      split at hx
      · exact .inl (List.mem_reverse.1 (List.mem_of_mem_eraseP (List.mem_reverse.1 hx)))
      · cases keep with
        | true => exact (List.mem_append.1 hx).imp_right List.mem_singleton.1
        | false => exact .inl hx
    · rw [cancelStep_letter hy] at hx
      exact (List.mem_append.1 hx).imp_right List.mem_singleton.1
  have hfold : ∀ (xs kept : List α) {x : α}, x ∈ xs.foldl (cancelStep keep mark) kept → x ∈ kept ∨ x ∈ xs := by
    intro xs
    induction xs with
    | nil => exact fun kept x hx => .inl hx
    | cons y xs ih =>
      intro kept x hx
      rcases ih _ hx with hx | hx
      · rcases hstep hx with hx | rfl
        · exact .inl hx
        · exact .inr List.mem_cons_self
      · exact .inr (List.mem_cons_of_mem y hx)
  intro x hx
  exact (hfold xs [] hx).resolve_left List.not_mem_nil

end Funbun.Library.Cancelling
