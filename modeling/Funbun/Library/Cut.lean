import Mathlib.Data.List.Basic

/-! Lists that a property cuts in two: it holds up to some place and not behind it. The last element that has the
property, and the binary search for the place; and what comes up to the first element that has it. -/
namespace Funbun.Library
variable {α : Type} {p : α → Bool}

/-- The last element with the property -/
def lastWith (p : α → Bool) (l : List α) : Option α := (l.filter p).getLast?

variable {l front back : List α} {x : α}

theorem lastWith_eq_none (h : ∀ x ∈ l, p x = false) : lastWith p l = none := by
  have hfilter : l.filter p = [] := List.filter_eq_nil_iff.2 fun x hx => by simp [h x hx]
  unfold lastWith
  rw [hfilter]
  rfl

theorem lastWith_append_left (h : ∀ x ∈ back, p x = false) :
    lastWith p (front ++ back) = lastWith p front := by
  have hfilter : back.filter p = [] := List.filter_eq_nil_iff.2 fun x hx => by simp [h x hx]
  unfold lastWith
  rw [List.filter_append, hfilter, List.append_nil]

theorem lastWith_append_right (h : lastWith p back = some x) :
    lastWith p (front ++ back) = some x := by
  unfold lastWith at h ⊢
  rw [List.filter_append, List.getLast?_append, h]
  rfl

theorem lastWith_cut (hx : p x = true) (h : ∀ y ∈ back, p y = false) :
    lastWith p (front ++ x :: back) = some x := by
  have hsplit : front ++ x :: back = (front ++ [x]) ++ back := by simp
  rw [hsplit, lastWith_append_left h]
  unfold lastWith
  rw [List.filter_append, List.filter_cons_of_pos hx]
  simp

theorem lastWith_cons (hx : p x = true) (h : ∀ y ∈ back, p y = false) :
    lastWith p (x :: back) = some x := by
  show lastWith p ([] ++ x :: back) = some x
  exact lastWith_cut hx h

theorem lastWith_cons_right {x y : α} (h : lastWith p back = some y) :
    lastWith p (x :: back) = some y := by
  show lastWith p ([x] ++ back) = some y
  exact lastWith_append_right h

theorem lastWith_map {β : Type} (f : β → α) (l : List β) : lastWith p (l.map f) = (lastWith (p ∘ f) l).map f := by
  unfold lastWith
  rw [List.filter_map, List.getLast?_map]

theorem exists_lastWith (hmem : x ∈ l) (hx : p x = true) : ∃ y, lastWith p l = some y := by
  have hne : l.filter p ≠ [] := List.ne_nil_of_mem (List.mem_filter.2 ⟨hmem, hx⟩)
  exact ⟨_, List.getLast?_eq_some_getLast hne⟩

/-- The property, once lost, is not found again. -/
def Falls (p : α → Bool) (l : List α) : Prop := l.Pairwise fun a b => p b = true → p a = true

theorem Falls.false_of_head (h : Falls p (x :: l)) (hx : p x = false) : ∀ y ∈ l, p y = false := by
  intro y hy
  by_contra hne
  have := (List.pairwise_cons.1 h).1 y hy (by simpa using hne)
  rw [hx] at this
  cases this

theorem Falls.of_cons (h : Falls p (x :: l)) : Falls p l := (List.pairwise_cons.1 h).2

theorem Falls.of_append_right (h : Falls p (front ++ back)) : Falls p back :=
  (List.pairwise_append.1 h).2.1

theorem Falls.of_append_left (h : Falls p (front ++ back)) : Falls p front :=
  (List.pairwise_append.1 h).1

/-- The place where the property of a number is lost -/
structure CutAt (p : Nat → Bool) (n k : Nat) : Prop where
  le : k ≤ n
  before : ∀ i < k, p i = true
  behind : ∀ i, k ≤ i → i < n → p i = false

/-- The halves of the interval, until it is empty -/
def binarySearch (p : Nat → Bool) (lo hi : Nat) : Nat :=
  if lo < hi then
    if p (lo + (hi - lo) / 2) then binarySearch p (lo + (hi - lo) / 2 + 1) hi else binarySearch p lo (lo + (hi - lo) / 2)
  else lo
termination_by hi - lo

theorem cutAt_binarySearch {p : Nat → Bool} {n : Nat} (hfalls : ∀ i j, i ≤ j → j < n → p j = true → p i = true)
    (lo hi : Nat) (hle : lo ≤ hi) (hhi : hi ≤ n) (hbefore : ∀ i < lo, p i = true)
    (hbehind : ∀ i, hi ≤ i → i < n → p i = false) : CutAt p n (binarySearch p lo hi) := by
  fun_induction binarySearch p lo hi with
  | case1 lo hi hlt hmid ih =>
    apply ih (by omega) hhi _ hbehind
    intro i hi'
    exact hfalls i _ (Nat.le_of_lt_succ hi') (by omega) hmid
  | case2 lo hi hlt hmid ih =>
    apply ih (by omega) (by omega) hbefore
    intro i hle hi'
    by_contra hne
    exact hmid (hfalls _ i hle hi' (by simpa using hne))
  | case3 lo hi hge =>
    have heq : lo = hi := by omega
    exact ⟨by omega, hbefore, heq ▸ hbehind⟩

/-- The cut of a list's places is the cut of the list. -/
theorem lastWith_cutAt {k : Nat} (h : CutAt (fun i => (l[i]?).any p) l.length k) :
    lastWith p l = if k = 0 then none else l[k - 1]? := by
  have hle := h.le
  have hback : ∀ x ∈ l.drop k, p x = false := by
    intro x hx
    rcases List.mem_iff_getElem?.1 hx with ⟨i, hi⟩
    rw [List.getElem?_drop] at hi
    have hlt := (List.getElem?_eq_some_iff.1 hi).1
    have := h.behind (k + i) (Nat.le_add_right _ _) hlt
    simpa [hi] using this
  by_cases hk : k = 0
  · rw [if_pos hk]
    rw [hk, List.drop_zero] at hback
    exact lastWith_eq_none hback
  · have hlt : k - 1 < l.length := by omega
    have hlast : p l[k - 1] = true := by
      have := h.before (k - 1) (by omega)
      simpa [List.getElem?_eq_getElem hlt] using this
    have hdrop : l.drop (k - 1) = l[k - 1] :: l.drop k := by
      rw [List.drop_eq_getElem_cons hlt, Nat.sub_add_cancel (Nat.pos_of_ne_zero hk)]
    have hsplit : l = l.take (k - 1) ++ l[k - 1] :: l.drop k := by
      rw [← hdrop, List.take_append_drop]
    rw [if_neg hk, List.getElem?_eq_getElem hlt]
    conv_lhs => rw [hsplit]
    exact lastWith_cut hlast hback

/-- A property that falls along a list is lost at one place of it. -/
theorem Falls.places (h : Falls p l) :
    ∀ i j, i ≤ j → j < l.length → (l[j]?).any p = true → (l[i]?).any p = true := by
  intro i j hij hj hp
  rw [List.getElem?_eq_getElem hj] at hp
  rw [List.getElem?_eq_getElem (by omega)]
  rcases Nat.lt_or_eq_of_le hij with hlt | heq
  · exact List.pairwise_iff_getElem.1 h i j (by omega) hj hlt hp
  · subst heq
    exact hp

theorem Falls.search (h : Falls p l) :
    CutAt (fun i => (l[i]?).any p) l.length (binarySearch (fun i => (l[i]?).any p) 0 l.length) :=
  cutAt_binarySearch h.places 0 l.length (Nat.zero_le _) (Nat.le_refl _) (fun _ hi => absurd hi (Nat.not_lt_zero _))
    fun _ hle hlt => absurd hlt (Nat.not_lt.2 hle)

/-! ### Up to the first -/

/-- The elements up to the first with the property, and this one. -/
def upTo (p : α → Bool) : List α → List α
  | [] => []
  | x :: l => if p x then [x] else x :: upTo p l

theorem upTo_append (h : ∀ x ∈ front, p x = false) :
    upTo p (front ++ back) = front ++ upTo p back := by
  induction front with
  | nil => rfl
  | cons x front ih =>
    obtain ⟨hx, hfront⟩ := List.forall_mem_cons.1 h
    simp [upTo, hx, ih hfront]

theorem upTo_of_forall (h : ∀ x ∈ l, p x = false) : upTo p l = l := by
  have happend : upTo p (l ++ []) = l ++ upTo p [] := upTo_append h
  rwa [List.append_nil, upTo, List.append_nil] at happend

theorem upTo_cut (h : ∀ y ∈ front, p y = false) (hx : p x = true) :
    upTo p (front ++ x :: back) = front ++ [x] := by
  rw [upTo_append h, upTo, if_pos hx]

/-- Whether or not an element has the property, it is not left out if none before it has. -/
theorem prefix_upTo (x : α) (h : ∀ y ∈ front, p y = false) :
    front ++ [x] <+: upTo p (front ++ x :: back) := by
  rw [upTo_append h]
  apply (List.prefix_append_right_inj front).2
  rw [upTo]
  split
  · exact List.prefix_refl _
  · exact ⟨upTo p back, rfl⟩

theorem upTo_congr {q : α → Bool} (h : ∀ x ∈ l, p x = q x) : upTo p l = upTo q l := by
  induction l with
  | nil => rfl
  | cons x l ih =>
    obtain ⟨hx, hl⟩ := List.forall_mem_cons.1 h
    rw [upTo, upTo, hx, ih hl]

end Funbun.Library
