import Mathlib.Data.List.SplitBy

/-! Lists that are stored in runs.

A new element joins the last run if it is related to the element before it, and starts a run of its own otherwise: the runs
are `List.splitBy`. A run is kept as its span, the positions it goes from and to. -/
namespace Funbun.Library.Runs
variable {α : Type} {r : α → α → Bool}

/-- `l` ends in an element that the first of `m` is related to. -/
def Joined (r : α → α → Bool) (l m : List α) : Prop :=
  ∃ x ∈ l.getLast?, ∃ y ∈ m.head?, r x y = true

instance (l m : List α) : Decidable (Joined r l m) :=
  match h : l.getLast?, h' : m.head? with
  | some x, some y => decidable_of_iff (r x y = true) (by simp [Joined, h, h'])
  | none, _ => isFalse (by simp [Joined, h])
  | some _, none => isFalse (by simp [Joined, h'])

variable {l m s : List α}

theorem splitBy_append_of_not_joined (h : ¬ Joined r l m) :
    (l ++ m).splitBy r = l.splitBy r ++ m.splitBy r := by
  apply List.splitBy_append
  intro x hx y hy
  by_contra hxy
  exact h ⟨x, hx, y, hy, by simpa using hxy⟩

/-- The runs of two lists that are joined: the last run of the one and the first of the other
are one. -/
theorem splitBy_append_of_joined (h : Joined r l m) :
    ∃ pre p q post, l.splitBy r = pre ++ [p] ∧ m.splitBy r = q :: post ∧ q ≠ [] ∧
      (l ++ m).splitBy r = pre ++ (p ++ q) :: post := by
  obtain ⟨x, hx, y, hy, hxy⟩ := h
  have hl : l ≠ [] := List.ne_nil_of_mem (List.mem_of_mem_getLast? hx)
  have hm : m ≠ [] := List.ne_nil_of_mem (List.mem_of_mem_head? hy)
  obtain ⟨pre, p, hpre⟩ := (List.eq_nil_or_concat (l.splitBy r)).resolve_left (List.splitBy_ne_nil.mpr hl)
  obtain ⟨q, post, hpost⟩ := List.exists_cons_of_ne_nil (List.splitBy_ne_nil (r := r).mpr hm)
  rw [List.concat_eq_append] at hpre
  obtain ⟨hjoin, hnil, hchain, hcut⟩ := List.splitBy_eq_iff.mp hpre
  obtain ⟨hjoin', hnil', hchain', hcut'⟩ := List.splitBy_eq_iff.mp hpost
  have hp : p ≠ [] := fun hp => hnil (by simp [hp])
  have hq : q ≠ [] := fun hq => hnil' (by simp [hq])
  have hlast : p.getLast? = some x := by
    rw [hjoin] at hx
    simpa [List.getLast?_append, hp, List.getLast?_eq_none_iff] using hx
  have hhead : q.head? = some y := by
    rw [hjoin'] at hy
    simpa [hq] using hy
  refine ⟨pre, p, q, post, hpre, hpost, hq, List.splitBy_eq_iff.mpr ⟨?_, ?_, ?_, ?_⟩⟩
  · rw [hjoin, hjoin']
    simp
  · grind
  · have hjoined : (p ++ q).IsChain fun x y => r x y = true :=
      List.isChain_append.mpr ⟨hchain p (by simp), hchain' q (by simp), by simp [hlast, hhead, hxy]⟩
    grind
  · rw [List.isChain_append] at hcut ⊢
    rw [List.isChain_cons] at hcut' ⊢
    refine ⟨hcut.1, ⟨?_, hcut'.2⟩, ?_⟩
    · simpa [List.getLast_append_of_ne_nil _ hq, hq] using hcut'.1
    · simpa [List.head_append_of_ne_nil hp, hp] using hcut.2.2

theorem splitBy_concat_of_joined {a : α} (h : Joined r l [a]) :
    ∃ pre p, l.splitBy r = pre ++ [p] ∧ (l ++ [a]).splitBy r = pre ++ [p ++ [a]] := by
  obtain ⟨pre, p, q, post, hl, ha, hq, hla⟩ := splitBy_append_of_joined h
  rw [List.splitBy_of_isChain (List.cons_ne_nil a []) (List.isChain_singleton a)] at ha
  cases ha
  exact ⟨pre, p, hl, hla⟩

/-! ### Spans -/

/-- Where each of some pieces starts and ends, if the first starts at `n`. -/
def spans : Nat → List (List α) → List (Nat × Nat)
  | _, [] => []
  | n, l :: ls => (n, n + l.length) :: spans (n + l.length) ls

/-- What stands in a span. -/
def within (l : List α) (s : Nat × Nat) : List α := (l.drop s.1).take (s.2 - s.1)

theorem spans_append (n : Nat) (ls ms : List (List α)) :
    spans n (ls ++ ms) = spans n ls ++ spans (n + ls.flatten.length) ms := by
  induction ls generalizing n with
  | nil => rfl
  | cons l ls ih =>
    simp only [List.cons_append, spans, ih, List.flatten_cons, List.length_append, Nat.add_assoc]

theorem length_spans (n : Nat) (ls : List (List α)) : (spans n ls).length = ls.length := by
  induction ls generalizing n with
  | nil => rfl
  | cons l ls ih => simp [spans, ih]

theorem map_within_spans (before : List α) (ls : List (List α)) :
    (spans before.length ls).map (within (before ++ ls.flatten)) = ls := by
  induction ls generalizing before with
  | nil => rfl
  | cons l ls ih =>
    have hrest := ih (before ++ l)
    rw [List.length_append, List.append_assoc] at hrest
    simp only [spans, List.map_cons, List.flatten_cons, hrest]
    simp [within]

/-- The spans of the runs hold the runs. -/
theorem within_spans_splitBy (l : List α) : (spans 0 (l.splitBy r)).map (within l) = l.splitBy r := by
  have h := map_within_spans [] (l.splitBy r)
  simpa using h

/-! ### A part of the list -/

/-- How many runs a list has. -/
def count (r : α → α → Bool) (l : List α) : Nat := (l.splitBy r).length

theorem count_append_of_not_joined (h : ¬ Joined r l m) :
    count r (l ++ m) = count r l + count r m := by
  simp [count, splitBy_append_of_not_joined h]

theorem count_le_append (l m : List α) : count r l ≤ count r (l ++ m) := by
  by_cases h : Joined r l m
  · obtain ⟨pre, p, q, post, hl, -, -, hlm⟩ := splitBy_append_of_joined h
    simp [count, hl, hlm]
  · rw [count_append_of_not_joined h]
    exact Nat.le_add_right _ _

/-- What the runs from the `i`-th up to the `j`-th hold. -/
def between (r : α → α → Bool) (l : List α) (i j : Nat) : List α :=
  (((l.splitBy r).drop i).take (j - i)).flatten

theorem between_append (h : ¬ Joined r l m) (n : Nat) :
    between r (l ++ m) (count r l) (count r l + n) = ((m.splitBy r).take n).flatten := by
  simp [between, splitBy_append_of_not_joined h, count]

theorem not_joined_append (hm : m ≠ []) (h : ¬ Joined r l m) : ¬ Joined r l (m ++ s) := by
  simpa [Joined, List.head?_append_of_ne_nil m hm] using h

theorem joined_append_left (hm : m ≠ []) : Joined r (l ++ m) s ↔ Joined r m s := by
  simp [Joined, List.getLast?_append_of_ne_nil l hm]

theorem take_splitBy_eq_iff :
    (((m ++ s).splitBy r).take (count r m)).flatten = m ↔ ¬ Joined r m s := by
  constructor
  · intro h hjoined
    obtain ⟨pre, p, q, post, hm, hs, hq, hms⟩ := splitBy_append_of_joined hjoined
    have hflat : m = pre.flatten ++ p := by
      rw [← List.flatten_splitBy r m, hm]
      simp
    rw [hms, count, hm] at h
    simp only [List.length_append, List.length_singleton, List.take_length_add_append, List.take_succ_cons,
      List.take_zero, List.flatten_append, List.flatten_singleton] at h
    rw [hflat, ← List.append_assoc] at h
    exact hq (List.append_right_eq_self.mp h)
  · intro h
    simp [splitBy_append_of_not_joined h, count]

/-- A part that is not joined to what is before it: the runs up to its end, as they are when
it is the end of the list, hold it and nothing else iff what follows is not joined to it. -/
theorem between_eq_iff (hbefore : ¬ Joined r l m) :
    between r (l ++ (m ++ s)) (count r l) (count r (l ++ m)) = m ↔ ¬ Joined r m s := by
  rw [count_append_of_not_joined hbefore]
  by_cases hm : m = []
  · simp [hm, between, count, Joined]
  · rw [between_append (not_joined_append hm hbefore), take_splitBy_eq_iff]

end Funbun.Library.Runs
