import Funbun.Cron.Expression

/-! The bits of a field, and the text that is written of them.

A field has the bits that its parts admit. What is written of the bits is a field with the same bits, since a number has no
byte that is anything but a digit. -/
namespace Funbun.Cron
open Library Library.Bits Strings

/-! ### What a field admits -/

/-- The numbers from the first of a range on, in steps -/
def Part.Holds (p : Part) (v : Nat) : Prop := p.rangeMin ≤ v ∧ v ≤ p.rangeMax ∧ p.step ∣ v - p.rangeMin

/-- A number of some part of a field -/
def Admits (min max : Nat) (kind : NameKind) (field : List UInt8) (v : Nat) : Prop :=
  ∃ part ∈ field.splitOn comma, ∃ p, parsePart part min max kind = .ok p ∧ p.Holds v

/-- A weekday of a field. Sunday is 0, and 7 where it is written. -/
def AdmitsWeekday (field : List UInt8) (v : Nat) : Prop :=
  Admits 0 7 .weekday field v ∨ v = 0 ∧ Admits 0 7 .weekday field 7

theorem getLsbD_setBits {w rangeMax step : Nat} (hstep : 0 < step) (hw : rangeMax < w) (v : Nat) :
    ∀ (n i : Nat) (result : BitVec w), rangeMax + 1 ≤ i + n → ((setBits rangeMax step n result i).getLsbD v = true ↔
      result.getLsbD v = true ∨ (i ≤ v ∧ v ≤ rangeMax ∧ step ∣ v - i)) := by
  intro n
  induction n with
  | zero =>
    intro i result hn
    rw [setBits]
    exact ⟨.inl, fun h => h.resolve_right fun h => by omega⟩
  | succ n ih =>
    intro i result hn
    rw [setBits]
    by_cases hi : i ≤ rangeMax
    · have hone : (result ||| 1#w <<< i).getLsbD v = true ↔ result.getLsbD v = true ∨ v = i := by
        rw [BitVec.getLsbD_or, getLsbD_one_shiftLeft, Bool.or_eq_true, Bool.and_eq_true, decide_eq_true_eq, decide_eq_true_eq]
        constructor
        · exact Or.imp_right And.left
        · exact Or.imp_right fun h => ⟨h, by omega⟩
      rw [if_pos hi]
      by_cases hlast : rangeMax < i + step
      · rw [if_pos hlast, hone]
        refine or_congr_right ⟨fun h => ?_, fun ⟨hle, hmax, hdvd⟩ => ?_⟩
        · subst h
          exact ⟨Nat.le_refl _, hi, by rw [Nat.sub_self]; exact Nat.dvd_zero step⟩
        · have := Nat.eq_zero_of_dvd_of_lt hdvd (by omega)
          omega
      · rw [if_neg hlast, ih (i + step) _ (by omega), hone, or_assoc]
        refine or_congr_right ⟨fun h => ?_, fun ⟨hle, hmax, hdvd⟩ => ?_⟩
        · rcases h with rfl | ⟨hle, hmax, hdvd⟩
          · exact ⟨Nat.le_refl _, hi, by rw [Nat.sub_self]; exact Nat.dvd_zero step⟩
          · refine ⟨by omega, hmax, ?_⟩
            have hsum : v - i = v - (i + step) + step := by omega
            rw [hsum]
            exact Nat.dvd_add hdvd (Nat.dvd_refl step)
        · rcases Nat.eq_or_lt_of_le hle with heq | hlt
          · exact .inl heq.symm
          · have hge := Nat.le_of_dvd (by omega) hdvd
            refine .inr ⟨by omega, hmax, ?_⟩
            rw [show v - (i + step) = v - i - step by omega]
            exact Nat.dvd_sub hdvd (Nat.dvd_refl step)
    · rw [if_neg hi]
      exact ⟨.inl, fun h => h.resolve_right fun h => by omega⟩

/-- The names of a kind are numbers of its field. -/
def NameKind.Fits (kind : NameKind) (min max : Nat) : Prop :=
  (kind = .weekday → min = 0 ∧ 6 ≤ max) ∧ (kind = .month → min ≤ 1 ∧ 12 ≤ max)

theorem inMap_mem {str : List UInt8} {map : List (List UInt8 × Nat)} {v : Nat} (h : inMapCaseInsensitive str map = some v) :
    ∃ name, (name, v) ∈ map := by
  unfold inMapCaseInsensitive at h
  obtain ⟨before, after, hmap, -⟩ := List.lookup_eq_some_iff.1 h
  exact ⟨_, by rw [hmap]; exact List.mem_append_right _ List.mem_cons_self⟩

section Values
variable {min max : Nat} {kind : NameKind}

variable {v w : Nat} {field : List UInt8}

theorem parseNumber_within {str : List UInt8} (h : parseValue str min max .none = .ok v) : min ≤ v ∧ v ≤ max := by
  unfold parseValue at h
  cases hparse : parseDecimal 255 str with
  | none =>
    rw [hparse] at h
    cases h
  | some val =>
    rw [hparse] at h
    simp only at h
    split at h
    · cases h
    · cases h
      omega

/-- A value is within its bounds. -/
theorem parseValue_within (hkind : kind.Fits min max) {str : List UInt8} (h : parseValue str min max kind = .ok v) :
    min ≤ v ∧ v ≤ max := by
  have hweekday : ∀ entry ∈ weekdayMap, entry.2 ≤ 6 := by decide
  have hmonth : ∀ entry ∈ monthMap, 1 ≤ entry.2 ∧ entry.2 ≤ 12 := by decide
  cases kind with
  | none => exact parseNumber_within h
  | weekday =>
    obtain ⟨rfl, hmax⟩ := hkind.1 rfl
    cases hmap : inMapCaseInsensitive str weekdayMap with
    | none =>
      unfold parseValue at h
      simp only [hmap] at h
      exact parseNumber_within h
    | some w =>
      unfold parseValue at h
      simp only [hmap] at h
      cases h
      obtain ⟨name, hmem⟩ := inMap_mem hmap
      exact ⟨Nat.zero_le _, Nat.le_trans (hweekday _ hmem) hmax⟩
  | month =>
    obtain ⟨hmin, hmax⟩ := hkind.2 rfl
    cases hmap : inMapCaseInsensitive str monthMap with
    | none =>
      unfold parseValue at h
      simp only [hmap] at h
      exact parseNumber_within h
    | some w =>
      unfold parseValue at h
      simp only [hmap] at h
      cases h
      obtain ⟨name, hmem⟩ := inMap_mem hmap
      have := hmonth _ hmem
      exact ⟨Nat.le_trans hmin this.1, Nat.le_trans this.2 hmax⟩

/-- A range that is not empty, in steps that are not 0 -/
theorem parsePart_within (hkind : kind.Fits min max) (hle : min ≤ max) {part : List UInt8} {p : Part}
    (h : parsePart part min max kind = .ok p) :
    0 < p.step ∧ min ≤ p.rangeMin ∧ p.rangeMin ≤ p.rangeMax ∧ p.rangeMax ≤ max := by
  unfold parsePart at h
  split at h
  · cases h
  cases hpieces : part.splitOn slash with
  | nil => exact absurd hpieces (List.splitOn_ne_nil slash part)
  | cons base rest =>
    simp only [hpieces] at h
    split at h
    · cases h
    obtain ⟨step, -, h⟩ := bind_eq_ok.1 h
    split at h
    · cases h
    rename_i hstep
    split at h
    · cases h
      exact ⟨Nat.pos_of_ne_zero hstep, Nat.le_refl _, hle, Nat.le_refl _⟩
    cases hrange : splitRange base with
    | some range =>
      simp only [hrange] at h
      obtain ⟨lo, hlo, h⟩ := bind_eq_ok.1 h
      obtain ⟨hi, hhi, h⟩ := bind_eq_ok.1 h
      split at h
      · cases h
      · rename_i horder
        cases h
        exact ⟨Nat.pos_of_ne_zero hstep, (parseValue_within hkind hlo).1, Nat.not_lt.1 horder,
          (parseValue_within hkind hhi).2⟩
    | none =>
      simp only [hrange] at h
      obtain ⟨lo, hlo, h⟩ := bind_eq_ok.1 h
      cases h
      have hloWithin := parseValue_within hkind hlo
      refine ⟨Nat.pos_of_ne_zero hstep, hloWithin.1, ?_, ?_⟩
      all_goals simp only; split
      · exact hloWithin.2
      · exact Nat.le_refl _
      · exact Nat.le_refl _
      · exact hloWithin.2

theorem Admits.within (hkind : kind.Fits min max) (hle : min ≤ max) (h : Admits min max kind field v) : min ≤ v ∧ v ≤ max := by
  obtain ⟨part, -, p, hparse, hlow, hhigh, -⟩ := h
  have := parsePart_within hkind hle hparse
  omega

/-! ### The bits of a field -/

theorem getLsbD_addPart (hkind : kind.Fits min max) (hle : min ≤ max) (hw : max < w) {result out : BitVec w}
    {part : List UInt8} (h : addPart min max kind result part = .ok out) (v : Nat) :
    out.getLsbD v = true ↔ result.getLsbD v = true ∨ ∃ p, parsePart part min max kind = .ok p ∧ p.Holds v := by
  unfold addPart at h
  obtain ⟨p, hparse, h⟩ := bind_eq_ok.1 h
  cases h
  have hwithin := parsePart_within hkind hle hparse
  rw [getLsbD_setBits hwithin.1 (by omega) v _ _ _ (by omega)]
  refine or_congr_right ⟨fun h => ⟨p, hparse, h⟩, fun h => ?_⟩
  obtain ⟨p', hparse', h⟩ := h
  cases hparse.symm.trans hparse'
  exact h

/-- The bits are those that the parts admit. -/
theorem getLsbD_addParts (hkind : kind.Fits min max) (hle : min ≤ max) (hw : max < w) (v : Nat) :
    ∀ (parts : List (List UInt8)) {result out : BitVec w}, parts.foldlM (addPart min max kind) result = .ok out →
      (out.getLsbD v = true ↔
        result.getLsbD v = true ∨ ∃ part ∈ parts, ∃ p, parsePart part min max kind = .ok p ∧ p.Holds v) := by
  intro parts
  induction parts with
  | nil =>
    intro result out h
    cases h
    simp
  | cons part parts ih =>
    intro result out h
    rw [List.foldlM_cons] at h
    obtain ⟨next, hadd, h⟩ := bind_eq_ok.1 h
    rw [ih h, getLsbD_addPart hkind hle hw hadd, or_assoc, List.exists_mem_cons_iff]

theorem getLsbD_foldSunday (x : BitVec 8) (v : Nat) :
    (foldSunday .weekday x).getLsbD v = true ↔ v < 7 ∧ (x.getLsbD v = true ∨ v = 0 ∧ x.getLsbD 7 = true) := by
  by_cases hv : v < 8
  · revert x v
    decide +kernel
  · have hx := BitVec.getLsbD_of_ge x v (by omega)
    have hfold := BitVec.getLsbD_of_ge (foldSunday .weekday x) v (by omega)
    rw [hfold]
    constructor
    · intro h
      cases h
    · intro h
      omega

theorem parseField_eq_ok {bits : BitVec w} (h : parseField field min max kind = .ok bits) :
    field ≠ [] ∧ ∃ result, (field.splitOn comma).foldlM (addPart min max kind) 0 = .ok result ∧ foldSunday kind result = bits := by
  unfold parseField at h
  split at h
  · cases h
  rename_i hne
  obtain ⟨result, hfold, h⟩ := bind_eq_ok.1 h
  cases h
  exact ⟨hne, result, hfold, rfl⟩

/-- The bits of a field are the numbers it admits. -/
theorem getLsbD_parseField (hkind : kind.Fits min max) (hle : min ≤ max) (hw : max < w) (hweekday : kind ≠ .weekday)
    {bits : BitVec w} (h : parseField field min max kind = .ok bits) (v : Nat) :
    bits.getLsbD v = true ↔ Admits min max kind field v := by
  obtain ⟨-, result, hfold, h⟩ := parseField_eq_ok h
  unfold foldSunday at h
  rw [if_neg hweekday] at h
  subst h
  rw [getLsbD_addParts hkind hle hw v _ hfold]
  simp [Admits]

theorem getLsbD_parseWeekdays {bits : BitVec 8} (h : parseField field 0 7 .weekday = .ok bits) (v : Nat) :
    bits.getLsbD v = true ↔ v < 7 ∧ AdmitsWeekday field v := by
  have hkind : NameKind.weekday.Fits 0 7 := ⟨fun _ => by decide, fun h => by cases h⟩
  obtain ⟨-, result, hfold, rfl⟩ := parseField_eq_ok h
  have hbit := fun v => getLsbD_addParts hkind (by decide) (by decide) v _ hfold
  rw [getLsbD_foldSunday, hbit, hbit]
  simp [AdmitsWeekday, Admits]

/-- A field admits a number. -/
theorem exists_admits (hkind : kind.Fits min max) (hle : min ≤ max) {bits : BitVec w}
    (h : parseField field min max kind = .ok bits) : ∃ v, Admits min max kind field v := by
  obtain ⟨-, result, hfold, -⟩ := parseField_eq_ok h
  cases hparts : field.splitOn comma with
  | nil => exact absurd hparts (List.splitOn_ne_nil comma field)
  | cons part parts =>
    rw [hparts, List.foldlM_cons] at hfold
    obtain ⟨next, hadd, -⟩ := bind_eq_ok.1 hfold
    unfold addPart at hadd
    obtain ⟨p, hparse, -⟩ := bind_eq_ok.1 hadd
    have hwithin := parsePart_within hkind hle hparse
    refine ⟨p.rangeMin, part, by rw [hparts]; exact List.mem_cons_self, p, hparse, Nat.le_refl _, hwithin.2.2.1, ?_⟩
    rw [Nat.sub_self]
    exact Nat.dvd_zero p.step

end Values

end Funbun.Cron
