import Mathlib.Data.List.ReduceOption

/-! Tables by linear probing.

A table is a list of slots, and what lies in a slot has a home. It lies at its home or behind it, and no
slot between the two is free. -/
namespace Funbun.Library.Probing
variable {β : Type} {home home' : β → Nat}

/-- The slots from `i` on, where the last slot that is free before them is the one before `floor`. -/
def Placed (home : β → Nat) : Nat → Nat → List (Option β) → Prop
  | _, _, [] => True
  | i, _, none :: slots => Placed home (i + 1) (i + 1) slots
  | i, floor, some b :: slots => floor ≤ home b ∧ home b ≤ i ∧ Placed home (i + 1) floor slots

/-- The floor behind some slots. -/
def floorAfter : Nat → Nat → List (Option β) → Nat
  | _, floor, [] => floor
  | i, _, none :: slots => floorAfter (i + 1) (i + 1) slots
  | i, floor, some _ :: slots => floorAfter (i + 1) floor slots

variable {i floor n : Nat} {slots : List (Option β)}

theorem floorAfter_le (h : floor ≤ i) :
    floorAfter i floor slots ≤ i + slots.length := by
  induction slots generalizing i floor with
  | nil => exact h
  | cons slot slots ih =>
    rw [List.length_cons]
    cases slot with
    | none =>
      have hrest := ih (Nat.le_refl (i + 1))
      rw [floorAfter]
      omega
    | some b =>
      have hle : floor ≤ i + 1 := by omega
      have hrest := ih hle
      rw [floorAfter]
      omega

theorem floorAfter_some (bs : List β) : floorAfter i floor (bs.map some) = floor := by
  induction bs generalizing i with
  | nil => rfl
  | cons b bs ih => exact ih

theorem floorAfter_none (hn : 0 < n) :
    floorAfter i floor (List.replicate n (none : Option β)) = i + n := by
  induction n generalizing i floor with
  | zero => cases hn
  | succ n ih =>
    rw [List.replicate_succ, floorAfter]
    by_cases hzero : n = 0
    · rw [hzero]
      rfl
    · rw [ih (by omega)]
      omega

theorem placed_append {slots rest : List (Option β)} : Placed home i floor (slots ++ rest) ↔
    Placed home i floor slots ∧ Placed home (i + slots.length) (floorAfter i floor slots) rest := by
  induction slots generalizing i floor with
  | nil => exact (true_and _).symm.to_iff
  | cons slot slots ih =>
    have hi : i + (slots.length + 1) = i + 1 + slots.length := by omega
    rw [List.length_cons, hi]
    cases slot with
    | none => exact ih
    | some b =>
      rw [List.cons_append, Placed, Placed, floorAfter, ih, and_assoc, and_assoc]

theorem placed_some {bs : List β} {rest : List (Option β)} :
    Placed home i floor (bs.map some ++ rest) ↔
      Placed home i floor (bs.map some) ∧ Placed home (i + bs.length) floor rest := by
  rw [placed_append, floorAfter_some, List.length_map]

theorem placed_none : Placed home i floor (List.replicate n none) := by
  induction n generalizing i floor with
  | zero => trivial
  | succ n ih => exact ih

namespace Placed
variable {i floor floor' : Nat} {slots : List (Option β)}

theorem lower (h : Placed home i floor slots) (hfloor : floor' ≤ floor) : Placed home i floor' slots := by
  induction slots generalizing i with
  | nil => trivial
  | cons slot slots ih =>
    cases slot with
    | none => exact h
    | some b => exact ⟨Nat.le_trans hfloor h.1, h.2.1, ih h.2.2⟩

theorem raise (h : Placed home i floor slots) (hfloor : ∀ b, some b ∈ slots → floor' ≤ home b) :
    Placed home i floor' slots := by
  induction slots generalizing i with
  | nil => trivial
  | cons slot slots ih =>
    cases slot with
    | none => exact h
    | some b => exact ⟨hfloor b List.mem_cons_self, h.2.1, ih h.2.2 fun c hc => hfloor c (List.mem_cons_of_mem _ hc)⟩

theorem floor_le (h : Placed home i floor slots) (hi : floor ≤ i) {b : β} (hb : some b ∈ slots) : floor ≤ home b := by
  induction slots generalizing i floor with
  | nil => cases hb
  | cons slot slots ih =>
    cases slot with
    | none =>
      have hrest := ih h (Nat.le_refl _) (by simpa using hb)
      omega
    | some c =>
      rcases List.mem_cons.mp hb with hc | hb
      · injection hc with hc
        rw [hc]
        exact h.1
      · exact ih h.2.2 (Nat.le_succ_of_le hi) hb

theorem home_lt (h : Placed home i floor slots) {b : β} (hb : some b ∈ slots) : home b < i + slots.length := by
  induction slots generalizing i floor with
  | nil => cases hb
  | cons slot slots ih =>
    rw [List.length_cons]
    cases slot with
    | none =>
      have hrest : Placed home (i + 1) (i + 1) slots := h
      have hlt := ih hrest (by simpa using hb)
      omega
    | some c =>
      rcases List.mem_cons.mp hb with hc | hb
      · injection hc with hc
        have hle := h.2.1
        rw [hc]
        omega
      · have hlt := ih h.2.2 hb
        omega

/-- No slot is free between a home and what lies behind it. -/
theorem get (h : Placed home i floor slots) {n : Nat} {b : β} (hb : slots[n]? = some (some b)) :
    home b ≤ i + n ∧ ∀ j, home b ≤ i + j → j < n → ∃ c, slots[j]? = some (some c) := by
  induction slots generalizing i floor n with
  | nil => cases hb
  | cons slot slots ih =>
    cases n with
    | zero =>
      rw [List.getElem?_cons_zero, Option.some.injEq] at hb
      subst hb
      exact ⟨h.2.1, fun j _ hj => absurd hj (Nat.not_lt_zero j)⟩
    | succ n =>
      rw [List.getElem?_cons_succ] at hb
      have hrest : home b ≤ i + 1 + n ∧ ∀ j, home b ≤ i + 1 + j → j < n → ∃ c, slots[j]? = some (some c) := by
        cases slot with
        | none => exact ih h hb
        | some c => exact ih h.2.2 hb
      refine ⟨by omega, fun j hhome hj => ?_⟩
      cases j with
      | zero =>
        cases slot with
        | none =>
          have hrest : Placed home (i + 1) (i + 1) slots := h
          have hfloor := hrest.floor_le (Nat.le_refl _) (List.mem_of_getElem? hb)
          omega
        | some c => exact ⟨c, rfl⟩
      | succ j => exact hrest.2 j (by omega) (by omega)

/-- Something is put in, and what lies there moves up to the next slot that is free. -/
theorem insert {as bs : List β} {x : β} {cs : List (Option β)}
    (h : Placed home i floor (as.map some ++ (bs.map some ++ none :: cs))) (hfloor : floor ≤ home x)
    (hhome : home x ≤ i + as.length) :
    Placed home i floor (as.map some ++ some x :: (bs.map some ++ cs)) := by
  rw [placed_some, placed_some] at h
  rw [placed_some, Placed, placed_some]
  obtain ⟨has, hbs, hcs⟩ := h
  refine ⟨has, hfloor, hhome, ?_, ?_⟩
  · -- each of them lies one slot further from its home
    clear hhome hcs
    generalize i + as.length = k at hbs
    induction bs generalizing k with
    | nil => trivial
    | cons b bs ih => exact ⟨hbs.1, Nat.le_succ_of_le hbs.2.1, ih (k + 1) hbs.2.2⟩
  · have hk : i + as.length + bs.length + 1 = i + as.length + 1 + bs.length := by omega
    rw [Placed, hk] at hcs
    exact hcs.lower (by omega)

/-- Something is taken out, and what lies behind it moves down to the last that may. -/
theorem delete {as bs : List β} {x : β} {cs : List (Option β)}
    (h : Placed home i floor (as.map some ++ some x :: (bs.map some ++ cs)))
    (hbs : ∀ n b, bs[n]? = some b → home b ≤ i + as.length + n)
    (hcs : ∀ c, some c ∈ cs → i + as.length + bs.length < home c) :
    Placed home i floor (as.map some ++ (bs.map some ++ none :: cs)) := by
  rw [placed_some, Placed, placed_some] at h
  rw [placed_some, placed_some, Placed]
  obtain ⟨has, hfloor, hhome, hbs', hcs'⟩ := h
  refine ⟨has, ?_, ?_⟩
  · clear hhome hcs hcs'
    generalize i + as.length = k at hbs hbs'
    induction bs generalizing k with
    | nil => trivial
    | cons b bs ih =>
      refine ⟨hbs'.1, hbs 0 b rfl, ih (k + 1) (fun n c hc => ?_) hbs'.2.2⟩
      have hle := hbs (n + 1) c hc
      omega
  · have hk : i + as.length + 1 + bs.length = i + as.length + bs.length + 1 := by omega
    rw [hk] at hcs'
    exact hcs'.raise fun c hc => hcs c hc

end Placed

/-- The slots copied into a longer table, in their order, each to its new home or to the next slot. -/
def spread (home' : β → Nat) : Nat → List (Option β) → List (Option β)
  | _, [] => []
  | dst, none :: slots => none :: spread home' (dst + 1) slots
  | dst, some b :: slots =>
    List.replicate (home' b - dst) none ++ some b :: spread home' (max dst (home' b) + 1) slots

theorem reduceOption_spread (slots : List (Option β)) (dst : Nat) :
    (spread home' dst slots).reduceOption = slots.reduceOption := by
  induction slots generalizing dst with
  | nil => rfl
  | cons slot slots ih =>
    cases slot with
    | none => exact ih (dst + 1)
    | some b =>
      have hnone : (List.replicate (home' b - dst) (none : Option β)).reduceOption = [] := by
        rw [List.reduceOption_replicate_none]
      rw [spread, List.reduceOption_append, hnone, List.nil_append, List.reduceOption_cons_of_some,
        List.reduceOption_cons_of_some, ih]

/-- The homes in the longer table are twice the homes, or one more. -/
theorem Placed.spread {i floor dst floor' : Nat} (h : Placed home i floor slots)
    (hfloor : floor ≤ i) (hhome : ∀ b, 2 * home b ≤ home' b ∧ home' b ≤ 2 * home b + 1)
    (hsorted : slots.reduceOption.Pairwise fun b c => home' b ≤ home' c) (hdst : dst ≤ 2 * i)
    (hle : ∀ b, some b ∈ slots → floor' ≤ home' b) : Placed home' dst floor' (spread home' dst slots) := by
  induction slots generalizing i floor dst floor' with
  | nil => trivial
  | cons slot slots ih =>
    cases slot with
    | none =>
      have hrest : Placed home (i + 1) (i + 1) slots := h
      refine ih hrest (Nat.le_refl _) hsorted (by omega) fun b hb => ?_
      have hb := hrest.floor_le (Nat.le_refl _) hb
      have hhome := hhome b
      omega
    | some b =>
      obtain ⟨_, hbi, hrest⟩ := h
      have hb := hhome b
      have hbfloor := hle b List.mem_cons_self
      rw [List.reduceOption_cons_of_some, List.pairwise_cons] at hsorted
      rw [Probing.spread, placed_append, List.length_replicate]
      refine ⟨placed_none, ?_⟩
      by_cases hgap : home' b ≤ dst
      · have hzero : home' b - dst = 0 := by omega
        rw [hzero, List.replicate_zero, floorAfter, Nat.add_zero, Nat.max_eq_left hgap]
        exact ⟨hbfloor, hgap, ih hrest (by omega) hsorted.2 (by omega) fun c hc => hle c (List.mem_cons_of_mem _ hc)⟩
      · -- the gap ends at the home, and all that follows has its home there or behind
        have hhere : dst + (home' b - dst) = home' b := by omega
        rw [hhere, Nat.max_eq_right (by omega)]
        have hafter : floorAfter dst floor' (List.replicate (home' b - dst) (none : Option β)) = home' b := by
          rw [floorAfter_none (by omega), hhere]
        rw [hafter]
        refine ⟨Nat.le_refl _, Nat.le_refl _, ih hrest (by omega) hsorted.2 (by omega) fun c hc => ?_⟩
        exact hsorted.1 c (List.reduceOption_mem_iff.mpr hc)

/-- How far the copy goes. -/
theorem Placed.length_spread {i floor dst n : Nat} (h : Placed home i floor slots)
    (hhome : ∀ b, home' b ≤ 2 * home b + 1) (hlt : ∀ b, some b ∈ slots → home' b < 2 * n) (hdst : dst ≤ n + i) :
    dst + (Probing.spread home' dst slots).length ≤ n + i + slots.length := by
  induction slots generalizing i floor dst with
  | nil => exact hdst
  | cons slot slots ih =>
    rw [List.length_cons]
    cases slot with
    | none =>
      have hrest : Placed home (i + 1) (i + 1) slots := h
      have hstep : dst + 1 ≤ n + (i + 1) := by omega
      have hlength := ih hrest (fun b hb => hlt b (List.mem_cons_of_mem _ hb)) hstep
      rw [Probing.spread, List.length_cons]
      omega
    | some b =>
      have hb := hhome b
      have hn := hlt b List.mem_cons_self
      have hbi := h.2.1
      have hstep : max dst (home' b) + 1 ≤ n + (i + 1) := by omega
      have hlength := ih h.2.2 (fun c hc => hlt c (List.mem_cons_of_mem _ hc)) hstep
      rw [Probing.spread, List.length_append, List.length_replicate, List.length_cons]
      omega

/-- A loop over the slots that passes some of them. -/
theorem passes {γ : Type} {loop : Nat → List β → Option (γ × List β)} {passed : List β}
    (hpass : ∀ i, ∀ b ∈ passed, ∀ slots, loop i (b :: slots) = (loop (i + 1) slots).map fun r => (r.1, b :: r.2))
    (i : Nat) (slots : List β) :
    loop i (passed ++ slots) = (loop (i + passed.length) slots).map fun r => (r.1, passed ++ r.2) := by
  induction passed generalizing i with
  | nil => exact Option.map_id'.symm
  | cons b passed ih =>
    have hrest := ih (fun i b hb => hpass i b (List.mem_cons_of_mem _ hb)) (i + 1)
    rw [List.cons_append, hpass i b List.mem_cons_self, hrest, Option.map_map, List.length_cons, Nat.add_comm passed.length,
      Nat.add_assoc]
    rfl

end Funbun.Library.Probing
