import Mathlib.Data.Nat.Digits.Defs
import Mathlib.Data.List.Perm.Subperm
import Funbun.Library.ArrayMap

/-! The names a chunk exports its symbols under.

`ExportRenamer` gives a name that is already used a number, and tries the numbers
one after the other until the name is new. When identifiers are minified it counts
instead, and the count goes on from chunk to chunk. -/
namespace Funbun.Bundler
open Library

abbrev Name := List UInt8

/-! ### Minified names -/

/-- `NameMinifier::DEFAULT_HEAD`: `a` to `z`, `A` to `Z`, `_` and `$`. -/
def defaultHead : List UInt8 := (List.range' 97 26 ++ List.range' 65 26 ++ [95, 36]).map Nat.toUInt8

/-- `NameMinifier::DEFAULT_TAIL`, with the digits before `_`. -/
def defaultTail : List UInt8 :=
  (List.range' 97 26 ++ List.range' 65 26 ++ List.range' 48 10 ++ [95, 36]).map Nat.toUInt8

/-- The characters after the first one. -/
def minifiedTail (i : Nat) : Name :=
  if h : i = 0 then []
  else defaultTail.getD ((i - 1) % 64) 0 :: minifiedTail ((i - 1) / 64)
  termination_by i
  decreasing_by exact Nat.lt_of_le_of_lt (Nat.div_le_self ..) (by omega)

/-- `NameMinifier::default_number_to_minified_name` -/
def defaultNumberToMinifiedName (i : Nat) : Name :=
  defaultHead.getD (i % 54) 0 :: minifiedTail (i / 54)

theorem getD_injective {l : List UInt8} (hl : l.Nodup) {i j : Nat} (hi : i < l.length) (hj : j < l.length)
    (h : l.getD i 0 = l.getD j 0) : i = j := by
  simp only [List.getD_eq_getElem?_getD, List.getElem?_eq_getElem hi, List.getElem?_eq_getElem hj,
    Option.getD_some] at h
  exact hl.getElem_inj_iff.mp h

theorem nodup_defaultHead : defaultHead.Nodup := by decide +kernel

theorem nodup_defaultTail : defaultTail.Nodup := by decide +kernel

theorem minifiedTail_injective (i : Nat) : ∀ j, minifiedTail i = minifiedTail j → i = j := by
  induction i using Nat.strong_induction_on with
  | _ i ih =>
    intro j h
    rw [minifiedTail, minifiedTail.eq_1 j] at h
    by_cases hi : i = 0
    · by_cases hj : j = 0
      · rw [hi, hj]
      · rw [dif_pos hi, dif_neg hj] at h
        cases h
    · by_cases hj : j = 0
      · rw [dif_neg hi, dif_pos hj] at h
        cases h
      · rw [dif_neg hi, dif_neg hj, List.cons.injEq] at h
        have hmod : (i - 1) % 64 = (j - 1) % 64 :=
          getD_injective nodup_defaultTail (Nat.mod_lt _ (by omega)) (Nat.mod_lt _ (by omega)) h.1
        have hdiv := ih ((i - 1) / 64) (by omega) ((j - 1) / 64) h.2
        omega

theorem defaultNumberToMinifiedName_injective {i j : Nat}
    (h : defaultNumberToMinifiedName i = defaultNumberToMinifiedName j) : i = j := by
  rw [defaultNumberToMinifiedName, defaultNumberToMinifiedName, List.cons.injEq] at h
  have hmod : i % 54 = j % 54 :=
    getD_injective nodup_defaultHead (Nat.mod_lt _ (by omega)) (Nat.mod_lt _ (by omega)) h.1
  have hdiv := minifiedTail_injective _ _ h.2
  omega

/-! ### The renamer -/

/-- `used` holds the names given since it was last cleared, `count` how many were minified. -/
structure ExportRenamer where
  used : ArrayMap Name Nat
  count : Nat

namespace ExportRenamer

def init : ExportRenamer := ⟨.empty, 0⟩

def clearRetainingCapacity (r : ExportRenamer) : ExportRenamer := {r with used := .empty}

/-- A number as it is written out. -/
def decimal (n : Nat) : Name := (Nat.digits 10 n).reverse.map fun d => (48 + d).toUInt8

/-- A name with a number. `display` is how the name is written out. -/
def attempt (display : Name → Name) (input : Name) (tries : Nat) : Name := display input ++ decimal tries

/-- The loop of `next_renamed_name`: the first number from `tries` on that makes a new name. -/
def search (display : Name → Name) (used : ArrayMap Name Nat) (input : Name) : Nat → Nat → Option (Nat × Name)
  | 0, _ => none
  | fuel + 1, tries =>
    let toUse := attempt display input tries
    if used.contains toUse then search display used input fuel (tries + 1) else some (tries + 1, toUse)

/-- There are more numbers to try than names used. -/
def nextRenamedName (display : Name → Name) (r : ExportRenamer) (input : Name) :
    Option (ExportRenamer × Name) :=
  if r.used.contains input then do
    let (tries, toUse) ← search display r.used input (r.used.entries.length + 1) 1
    some ({r with used := (r.used.put toUse tries).put input tries}, toUse)
  else some ({r with used := r.used.put input 1}, input)

def nextMinifiedName (r : ExportRenamer) : ExportRenamer × Name :=
  ({r with count := r.count + 1}, defaultNumberToMinifiedName r.count)

/-! ### Names are new -/

theorem map_decimal (n : Nat) : (decimal n).map (fun c => c.toNat - 48) = (Nat.digits 10 n).reverse := by
  rw [decimal, List.map_map]
  conv_rhs => rw [← List.map_id (Nat.digits 10 n).reverse]
  apply List.map_congr_left
  intro d hd
  have hlt : d < 10 := Nat.digits_lt_base (by omega) (List.mem_reverse.mp hd)
  show ((48 + d).toUInt8).toNat - 48 = d
  rw [Nat.toUInt8, UInt8.toNat_ofNat', Nat.mod_eq_of_lt (by omega)]
  omega

theorem decimal_injective {m n : Nat} (h : decimal m = decimal n) : m = n := by
  have hmap := congrArg (List.map fun c : UInt8 => c.toNat - 48) h
  rw [map_decimal, map_decimal] at hmap
  exact Nat.digits_inj_iff.mp (List.reverse_injective hmap)

theorem attempt_injective (display : Name → Name) (input : Name) {m n : Nat}
    (h : attempt display input m = attempt display input n) : m = n :=
  decimal_injective (List.append_cancel_left h)

theorem search_fresh {display : Name → Name} {used : ArrayMap Name Nat} {input : Name} (fuel : Nat) :
    ∀ {tries n : Nat} {name : Name}, search display used input fuel tries = some (n, name) →
      name ∉ used.keys := by
  induction fuel with
  | zero =>
    intro tries n name h
    cases h
  | succ fuel ih =>
    intro tries n name h
    rw [search] at h
    split at h
    · exact ih h
    · next hnew =>
      obtain ⟨-, rfl⟩ := Prod.mk.inj (Option.some.inj h)
      exact fun hmem => hnew (ArrayMap.contains_iff _ |>.mpr hmem)

theorem used_of_search {display : Name → Name} {used : ArrayMap Name Nat} {input : Name} (fuel : Nat) :
    ∀ {tries : Nat}, search display used input fuel tries = none →
      ∀ n, tries ≤ n → n < tries + fuel → attempt display input n ∈ used.keys := by
  induction fuel with
  | zero =>
    intro tries _ n hle hlt
    omega
  | succ fuel ih =>
    intro tries h n hle hlt
    rw [search] at h
    split at h
    · next hused =>
      obtain rfl | hne := Nat.eq_or_lt_of_le hle
      · exact (ArrayMap.contains_iff _).mp hused
      · exact ih h n hne (by omega)
    · cases h

/-- One of the numbers makes a new name: there are more of them than used names. -/
theorem search_finds (display : Name → Name) (used : ArrayMap Name Nat) (input : Name) :
    ∃ found, search display used input (used.entries.length + 1) 1 = some found := by
  cases hsearch : search display used input (used.entries.length + 1) 1 with
  | some found => exact ⟨found, rfl⟩
  | none =>
    have hsub : (List.range' 1 (used.entries.length + 1)).map (attempt display input) ⊆ used.keys := by
      intro name hname
      obtain ⟨n, hn, rfl⟩ := List.mem_map.mp hname
      obtain ⟨hle, hlt⟩ := List.mem_range'_1.mp hn
      exact used_of_search _ hsearch n hle hlt
    have hnodup : ((List.range' 1 (used.entries.length + 1)).map (attempt display input)).Nodup :=
      List.Nodup.map (fun m n => attempt_injective display input) List.nodup_range'
    have hlen := (hnodup.subperm hsub).length_le
    simp [ArrayMap.keys] at hlen

theorem nextRenamedName_spec (display : Name → Name) (r : ExportRenamer) (input : Name) :
    ∃ r' name, nextRenamedName display r input = some (r', name) ∧ name ∉ r.used.keys ∧
      name ∈ r'.used.keys ∧ r.used.keys ⊆ r'.used.keys := by
  by_cases hused : r.used.contains input
  · obtain ⟨⟨tries, name⟩, hfound⟩ := search_finds display r.used input
    refine ⟨_, name, by rw [nextRenamedName, if_pos hused, hfound]; rfl, search_fresh _ hfound, ?_, ?_⟩
    · exact (ArrayMap.mem_keys_put ..).mpr (.inr ((ArrayMap.mem_keys_put ..).mpr (.inl rfl)))
    · intro k hk
      exact (ArrayMap.mem_keys_put ..).mpr (.inr ((ArrayMap.mem_keys_put ..).mpr (.inr hk)))
  · refine ⟨_, input, by rw [nextRenamedName, if_neg hused], ?_, ?_, ?_⟩
    · exact fun hmem => hused ((ArrayMap.contains_iff _).mpr hmem)
    · exact (ArrayMap.mem_keys_put ..).mpr (.inl rfl)
    · intro k hk
      exact (ArrayMap.mem_keys_put ..).mpr (.inr hk)

end ExportRenamer
end Funbun.Bundler
