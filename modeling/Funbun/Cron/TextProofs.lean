import Funbun.Cron.FieldProofs

/-! The text that is written of the bits of a field, which is a field with the same bits. -/
namespace Funbun.Cron
open Library Library.Bits Strings

/-! ### Numbers -/

def IsDigit (b : UInt8) : Prop := '0'.toUInt8 ≤ b ∧ b ≤ '9'.toUInt8

instance (b : UInt8) : Decidable (IsDigit b) := inferInstanceAs (Decidable (_ ∧ _))

theorem display_lt_60 : ∀ i < 60, display i ≠ [] ∧ (display i).length ≤ 2 ∧ (∀ b ∈ display i, IsDigit b) ∧
    parseDecimal 255 (display i) = some i ∧ splitRange (display i) = none ∧
    inMapCaseInsensitive (display i) weekdayMap = none ∧ inMapCaseInsensitive (display i) monthMap = none := by
  decide +kernel

variable {min max : Nat} {kind : NameKind}

theorem parseValue_display {i : Nat} (hi : i < 60) (hmin : min ≤ i) (hmax : i ≤ max) :
    parseValue (display i) min max kind = .ok i := by
  obtain ⟨-, -, -, hparse, -, hweekday, hmonth⟩ := display_lt_60 i hi
  have hwithin : ¬(i < min ∨ max < i) := by omega
  unfold parseValue
  cases kind <;> simp only [hparse, hweekday, hmonth, if_neg hwithin]

theorem parsePart_display {i : Nat} (hi : i < 60) (hmin : min ≤ i) (hmax : i ≤ max) :
    parsePart (display i) min max kind = .ok ⟨i, i, 1⟩ := by
  obtain ⟨hne, -, hdigits, -, hrange, -⟩ := display_lt_60 i hi
  have hslash : slash ∉ display i := fun h => absurd (hdigits _ h) (by decide)
  have hstar : display i ≠ star := by
    intro h
    have hmem : '*'.toUInt8 ∈ display i := by
      rw [h]
      exact List.mem_singleton_self _
    exact absurd (hdigits _ hmem) (by decide)
  have hvalue : parseValue (display i) min max kind = .ok i := parseValue_display hi hmin hmax
  unfold parsePart
  rw [if_neg hne, List.splitOn_eq_singleton hslash]
  simp only [List.length_nil, Nat.not_lt_zero, if_false, List.head?_nil, parseStep, hrange, hvalue]
  exact if_neg hstar

/-! ### Fields -/

/-- The bytes of the fields that are written -/
def IsPlain (b : UInt8) : Prop := IsDigit b ∨ b = comma ∨ b = '*'.toUInt8

instance (b : UInt8) : Decidable (IsPlain b) := inferInstanceAs (Decidable (_ ∨ _))

theorem IsPlain.not_blank {b : UInt8} (h : IsPlain b) : isBlank b = false := by
  rcases h with h | rfl | rfl
  · cases hb : isBlank b with
    | false => rfl
    | true =>
      unfold isBlank at hb
      rw [Bool.or_eq_true, beq_iff_eq, beq_iff_eq] at hb
      rcases hb with rfl | rfl
      · exact absurd h (by decide)
      · exact absurd h (by decide)
  · decide
  · decide

theorem mem_intercalate {α : Type} {sep : List α} {b : α} :
    ∀ {pieces : List (List α)}, b ∈ sep.intercalate pieces → b ∈ sep ∨ ∃ piece ∈ pieces, b ∈ piece
  | [], h => by simp at h
  | [piece], h => by
    rw [List.intercalate_singleton] at h
    exact .inr ⟨piece, List.mem_singleton_self _, h⟩
  | piece :: next :: pieces, h => by
    rw [List.intercalate_cons_cons, List.mem_append, List.mem_append] at h
    rcases h with (h | h) | h
    · exact .inr ⟨piece, List.mem_cons_self, h⟩
    · exact .inl h
    · refine (mem_intercalate h).imp_right fun h => ?_
      obtain ⟨piece', hmem, h⟩ := h
      exact ⟨piece', List.mem_cons_of_mem _ hmem, h⟩

theorem length_intercalate_le {α : Type} {sep : List α} {k : Nat} :
    ∀ {pieces : List (List α)}, (∀ piece ∈ pieces, piece.length + sep.length ≤ k) →
      (sep.intercalate pieces).length ≤ k * pieces.length
  | [], _ => by simp
  | [piece], h => by
    have := h piece (List.mem_singleton_self _)
    rw [List.intercalate_singleton, List.length_singleton]
    omega
  | piece :: next :: pieces, h => by
    have hfirst := h piece List.mem_cons_self
    have hrest := length_intercalate_le fun piece' hmem => h piece' (List.mem_cons_of_mem _ hmem)
    rw [List.intercalate_cons_cons, List.length_append, List.length_append, List.length_cons, Nat.mul_add_one]
    omega

variable {w : Nat} {bits : BitVec w}

/-- The numbers whose bits are set, from the lowest on -/
def listed (bits : BitVec w) (min max : Nat) : List Nat := (List.range' min (max - min + 1)).filter (bits.getLsbD ·)

theorem mem_listed (hle : min ≤ max) {i : Nat} : i ∈ listed bits min max ↔ (min ≤ i ∧ i ≤ max) ∧ bits.getLsbD i = true := by
  unfold listed
  rw [List.mem_filter, List.mem_range'_1]
  refine and_congr_left fun _ => ?_
  omega

theorem formatBitfield_eq : formatBitfield bits min max =
    if countOnes bits = max - min + 1 then star else [comma].intercalate ((listed bits min max).map display) := rfl

section Text
variable (hle : min ≤ max) (hmax : max < 60)
include hle hmax

theorem formatBitfield_plain {b : UInt8} (h : b ∈ formatBitfield bits min max) : IsPlain b := by
  rw [formatBitfield_eq] at h
  split at h
  · exact .inr (.inr (List.mem_singleton.1 h))
  · rcases mem_intercalate h with h | h
    · exact .inr (.inl (List.mem_singleton.1 h))
    · obtain ⟨piece, hmem, h⟩ := h
      obtain ⟨i, hi, rfl⟩ := List.mem_map.1 hmem
      have hlt : i < 60 := Nat.lt_of_le_of_lt ((mem_listed hle).1 hi).1.2 hmax
      exact .inl ((display_lt_60 i hlt).2.2.1 b h)

/-- A field has room in the buffer. -/
theorem length_formatBitfield : (formatBitfield bits min max).length ≤ 3 * (max - min + 1) := by
  rw [formatBitfield_eq]
  split
  · have hstar : star.length = 1 := rfl
    omega
  · have hlength : (listed bits min max).length ≤ max - min + 1 := by
      unfold listed
      refine Nat.le_trans (List.length_filter_le ..) (Nat.le_of_eq List.length_range')
    refine Nat.le_trans (length_intercalate_le (k := 3) fun piece hmem => ?_) ?_
    · obtain ⟨i, hi, rfl⟩ := List.mem_map.1 hmem
      have hlt : i < 60 := Nat.lt_of_le_of_lt ((mem_listed hle).1 hi).1.2 hmax
      exact Nat.succ_le_succ (display_lt_60 i hlt).2.1
    · rw [List.length_map]
      exact Nat.mul_le_mul_left 3 hlength

/-- A list of numbers has no `*`. -/
theorem formatBitfield_eq_star : formatBitfield bits min max = star ↔ countOnes bits = max - min + 1 := by
  rw [formatBitfield_eq]
  split
  · rename_i hcount
    exact ⟨fun _ => hcount, fun _ => rfl⟩
  · rename_i hcount
    refine ⟨fun h => ?_, fun h => absurd h hcount⟩
    have hmem : '*'.toUInt8 ∈ [comma].intercalate ((listed bits min max).map display) := by
      rw [h]
      exact List.mem_singleton_self _
    rcases mem_intercalate hmem with hmem | hmem
    · exact absurd hmem (by decide)
    · obtain ⟨piece, hpiece, hmem⟩ := hmem
      obtain ⟨i, hi, rfl⟩ := List.mem_map.1 hpiece
      have hlt : i < 60 := Nat.lt_of_le_of_lt ((mem_listed hle).1 hi).1.2 hmax
      exact absurd ((display_lt_60 i hlt).2.2.1 _ hmem) (by decide)

end Text

/-! ### Reading a field back -/

theorem addPart_display {result : BitVec w} {i : Nat} (hi : i < 60) (hmin : min ≤ i) (hmax : i ≤ max) :
    addPart min max kind result (display i) = .ok (result ||| 1#w <<< i) := by
  have hset : setBits i 1 (i + 1 - i) result i = result ||| 1#w <<< i := by
    rw [Nat.add_sub_cancel_left, setBits, if_pos (Nat.le_refl i), if_pos (Nat.lt_succ_self i)]
  unfold addPart
  rw [parsePart_display hi hmin hmax]
  exact congrArg Except.ok hset

theorem addParts_display : ∀ {is : List Nat} {result : BitVec w}, (∀ i ∈ is, i < 60 ∧ min ≤ i ∧ i ≤ max) →
    (is.map display).foldlM (addPart min max kind) result = .ok (is.foldl (fun x i => x ||| 1#w <<< i) result)
  | [], _, _ => rfl
  | i :: is, result, h => by
    have hfirst := h i List.mem_cons_self
    rw [List.map_cons, List.foldlM_cons, addPart_display hfirst.1 hfirst.2.1 hfirst.2.2, List.foldl_cons]
    exact addParts_display fun j hj => h j (List.mem_cons_of_mem i hj)

theorem parsePart_star : parsePart star min max kind = .ok ⟨min, max, 1⟩ := by
  have hsplit : star.splitOn slash = [star] := by decide
  unfold parsePart
  rw [if_neg (by decide), hsplit]
  rfl

/-- All bits of a `*`, up to the end of the field that is read, or the bits that were written -/
theorem addParts_formatBitfield (kind : NameKind) (last : Nat) (hle : min ≤ max) (hmax : max < 60) (hlast : max ≤ last)
    (hwithin : Within bits min max) (hone : ∃ i, bits.getLsbD i = true) :
    ((formatBitfield bits min max).splitOn comma).foldlM (addPart min last kind) 0 =
      .ok (if countOnes bits = max - min + 1 then setBits last 1 (last + 1 - min) (0 : BitVec w) min else bits) := by
  rw [formatBitfield_eq]
  split
  · have hsplit : star.splitOn comma = [star] := by decide
    rw [hsplit, List.foldlM_cons]
    unfold addPart
    rw [parsePart_star]
    rfl
  · have hlisted : ∀ i ∈ listed bits min max, i < 60 ∧ min ≤ i ∧ i ≤ last := by
      intro i hi
      have := ((mem_listed hle).1 hi).1
      omega
    have hcomma : ∀ piece ∈ (listed bits min max).map display, comma ∉ piece := by
      intro piece hmem h
      obtain ⟨i, hi, rfl⟩ := List.mem_map.1 hmem
      exact absurd ((display_lt_60 i (hlisted i hi).1).2.2.1 _ h) (by decide)
    have hne : (listed bits min max).map display ≠ [] := by
      obtain ⟨i, hi⟩ := hone
      exact List.ne_nil_of_mem (List.mem_map_of_mem ((mem_listed hle).2 ⟨hwithin i hi, hi⟩))
    have hbits : (listed bits min max).foldl (fun x i => x ||| 1#w <<< i) 0 = bits := by
      apply BitVec.eq_of_getLsbD_eq
      intro j hj
      rw [getLsbD_foldl_or, Bool.eq_iff_iff]
      simp only [BitVec.ofNat_eq_ofNat, BitVec.getLsbD_zero, Bool.false_or, Bool.and_eq_true, decide_eq_true_eq, hj, and_true,
        mem_listed hle]
      exact and_iff_right_of_imp (hwithin j)
    rw [List.splitOn_intercalate _ hcomma hne, addParts_display hlisted, hbits]

theorem formatBitfield_ne_nil (hle : min ≤ max) (hmax : max < 60) (hwithin : Within bits min max)
    (hone : ∃ i, bits.getLsbD i = true) : formatBitfield bits min max ≠ [] := by
  obtain ⟨i, hi⟩ := hone
  have hlt : i < 60 := Nat.lt_of_le_of_lt (hwithin i hi).2 hmax
  intro h
  rw [formatBitfield_eq] at h
  split at h
  · cases h
  · have hsplit := congrArg (List.splitOn comma) h
    have hmem : display i ∈ (listed bits min max).map display := List.mem_map_of_mem ((mem_listed hle).2 ⟨hwithin i hi, hi⟩)
    rw [List.splitOn_intercalate] at hsplit
    · rw [hsplit] at hmem
      exact (display_lt_60 i hlt).1 (List.mem_singleton.1 hmem)
    · intro piece hpiece hcomma
      obtain ⟨j, hj, rfl⟩ := List.mem_map.1 hpiece
      have hjlt : j < 60 := Nat.lt_of_le_of_lt ((mem_listed hle).1 hj).1.2 hmax
      exact absurd ((display_lt_60 j hjlt).2.2.1 _ hcomma) (by decide)
    · exact List.ne_nil_of_mem hmem

/-- A field that is written is read back. -/
theorem parseField_formatBitfield (hkind : kind ≠ .weekday) (hle : min ≤ max) (hmax : max < 60) (hw : max < w)
    (hwithin : Within bits min max) (hone : ∃ i, bits.getLsbD i = true) :
    parseField (formatBitfield bits min max) min max kind = .ok bits := by
  have hread := addParts_formatBitfield kind max hle hmax (Nat.le_refl max) hwithin hone
  have hbits : (if countOnes bits = max - min + 1 then setBits max 1 (max + 1 - min) (0 : BitVec w) min else bits) = bits := by
    split
    · rename_i hcount
      have hall := hwithin.countOnes_eq_iff.1 (by omega)
      apply BitVec.eq_of_getLsbD_eq
      intro j hj
      rw [Bool.eq_iff_iff, getLsbD_setBits Nat.one_pos hw j _ _ _ (by omega)]
      simp only [BitVec.ofNat_eq_ofNat, BitVec.getLsbD_zero, Bool.false_eq_true, false_or, Nat.one_dvd, and_true]
      exact ⟨fun h => hall j h.1 h.2, hwithin j⟩
    · rfl
  unfold parseField
  rw [if_neg (formatBitfield_ne_nil hle hmax hwithin hone), hread, hbits]
  exact congrArg Except.ok (if_neg hkind)

theorem parseWeekdays_formatBitfield {bits : BitVec 8} (hwithin : Within bits 0 6) (hone : ∃ i, bits.getLsbD i = true) :
    parseField (formatBitfield bits 0 6) 0 7 .weekday = .ok bits := by
  have hread := addParts_formatBitfield .weekday 7 (Nat.zero_le 6) (by decide) (by decide)
    hwithin hone
  have hseven : bits.getLsbD 7 ≠ true := fun h => absurd (hwithin 7 h).2 (by decide)
  have hbits : foldSunday .weekday (if countOnes bits = 6 - 0 + 1 then setBits 7 1 (7 + 1 - 0) (0 : BitVec 8) 0 else bits) = bits := by
    apply BitVec.eq_of_getLsbD_eq
    intro j hj
    rw [Bool.eq_iff_iff, getLsbD_foldSunday]
    split
    · rename_i hcount
      have hall := hwithin.countOnes_eq_iff.1 hcount
      have hset : setBits 7 1 (7 + 1 - 0) (0 : BitVec 8) 0 = BitVec.allOnes 8 := by decide
      rw [hset]
      refine ⟨fun h => hall j (Nat.zero_le j) (by omega), fun h => ⟨?_, .inl ?_⟩⟩
      · have := (hwithin j h).2
        omega
      · rw [BitVec.getLsbD_allOnes]
        exact decide_eq_true hj
    · refine ⟨fun h => h.2.resolve_right fun h => hseven h.2, fun h => ⟨?_, .inl h⟩⟩
      have := (hwithin j h).2
      omega
  unfold parseField
  rw [if_neg (formatBitfield_ne_nil (by decide) (by decide) hwithin hone), hread]
  exact congrArg Except.ok hbits

end Funbun.Cron
