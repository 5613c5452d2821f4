import Funbun.Cron.TextProofs

/-! An expression that is read, written as numbers, and read again.

The text that is written is one that is read. What is read has the same bits, but a field that has all its bits is written
as `*`, so that it is one that does not matter, where it had been one that made every day match. -/
namespace Funbun.Cron
open Library Library.Bits Library.Calendar Strings

/-! ### Texts -/

theorem trim_cons_concat {a z : UInt8} {mid : List UInt8} (ha : isBlank a = false) (hz : isBlank z = false) :
    trim (a :: (mid ++ [z])) = a :: (mid ++ [z]) := by
  unfold trim
  rw [List.dropWhile_cons_of_neg (by rw [ha]; decide), List.reverse_cons, List.reverse_append, List.reverse_singleton,
    List.singleton_append, List.cons_append, List.dropWhile_cons_of_neg (by rw [hz]; decide)]
  simp

/-- Five texts without blanks, and blanks between them -/
theorem words_fields {a b c d e : List UInt8} (h : ∀ field ∈ [a, b, c, d, e], field ≠ [] ∧ ∀ x ∈ field, isBlank x = false) :
    words (a ++ blank ++ b ++ blank ++ c ++ blank ++ d ++ blank ++ e) = [a, b, c, d, e] := by
  have hblank : isBlank ' '.toUInt8 = true := by decide
  simp only [List.forall_mem_cons] at h
  obtain ⟨⟨ha, ha'⟩, ⟨hb, hb'⟩, ⟨hc, hc'⟩, ⟨hd, hd'⟩, ⟨he, he'⟩, -⟩ := h
  unfold words blank
  simp only [List.append_assoc, List.cons_append, List.nil_append]
  rw [List.splitOnP_append_cons_of_forall_mem ha' _ hblank, List.splitOnP_append_cons_of_forall_mem hb' _ hblank,
    List.splitOnP_append_cons_of_forall_mem hc' _ hblank, List.splitOnP_append_cons_of_forall_mem hd' _ hblank,
    List.splitOnP_eq_singleton he']
  simp [ha, hb, hc, hd, he]

theorem trim_fields {a e mid : List UInt8} (ha : a ≠ []) (he : e ≠ []) (ha' : ∀ x ∈ a, isBlank x = false)
    (he' : ∀ x ∈ e, isBlank x = false) : trim (a ++ mid ++ e) = a ++ mid ++ e := by
  obtain ⟨first, a, rfl⟩ := List.exists_cons_of_ne_nil ha
  obtain ⟨e, last, rfl⟩ := (List.eq_nil_or_concat e).resolve_left he
  have htrim : trim (first :: (a ++ mid ++ e ++ [last])) = first :: (a ++ mid ++ e ++ [last]) :=
    trim_cons_concat (ha' first List.mem_cons_self) (he' last (by simp))
  simpa [List.append_assoc] using htrim

theorem head_fields {a rest : List UInt8} (ha : a ≠ []) (ha' : ∀ x ∈ a, IsPlain x) : (a ++ rest).head? ≠ some '@'.toUInt8 := by
  obtain ⟨first, a, rfl⟩ := List.exists_cons_of_ne_nil ha
  intro h
  cases h
  exact absurd (ha' _ List.mem_cons_self) (by decide)

/-! ### What is read -/

/-- Fields of numbers that are their own, and wildcards that have all of them -/
structure CronExpression.Valid (e : CronExpression) : Prop where
  minutes : Within e.minutes 0 59
  hours : Within e.hours 0 23
  days : Within e.days 1 31
  months : Within e.months 1 12
  weekdays : Within e.weekdays 0 6
  minute : ∃ i, e.minutes.getLsbD i = true
  hour : ∃ i, e.hours.getLsbD i = true
  day : ∃ i, e.days.getLsbD i = true
  month : ∃ i, e.months.getLsbD i = true
  weekday : ∃ i, e.weekdays.getLsbD i = true
  all_days : e.daysIsWildcard = true → countOnes e.days = 31
  all_weekdays : e.weekdaysIsWildcard = true → countOnes e.weekdays = 7

/-- What the fields of a text say, each of them alone -/
structure ReadFrom (e : CronExpression) (minute hour day month weekday : List UInt8) : Prop where
  minutes : ∀ v, e.minutes.getLsbD v = true ↔ Admits 0 59 .none minute v
  hours : ∀ v, e.hours.getLsbD v = true ↔ Admits 0 23 .none hour v
  days : ∀ v, e.days.getLsbD v = true ↔ Admits 1 31 .none day v
  months : ∀ v, e.months.getLsbD v = true ↔ Admits 1 12 .month month v
  weekdays : ∀ v, e.weekdays.getLsbD v = true ↔ v < 7 ∧ AdmitsWeekday weekday v
  daysIsWildcard : e.daysIsWildcard = decide (day = star)
  weekdaysIsWildcard : e.weekdaysIsWildcard = decide (weekday = star)

variable {min max w : Nat} {input : List UInt8} {e : CronExpression}

theorem fits_none : NameKind.none.Fits min max := ⟨fun h => (by cases h), fun h => (by cases h)⟩

theorem fits_month : NameKind.month.Fits 1 12 := ⟨fun h => (by cases h), fun _ => (by decide)⟩

theorem fits_weekday : NameKind.weekday.Fits 0 7 := ⟨fun _ => (by decide), fun h => (by cases h)⟩

/-- A text that is no nickname has five fields. -/
theorem parse_fields (h : parse input = .ok e)
    (hhead : (trim input).head? ≠ some '@'.toUInt8) : ∃ minute hour day month weekday,
      words (trim input) = [minute, hour, day, month, weekday] ∧ parseField minute 0 59 .none = .ok e.minutes ∧
        parseField hour 0 23 .none = .ok e.hours ∧ parseField day 1 31 .none = .ok e.days ∧
        parseField month 1 12 .month = .ok e.months ∧ parseField weekday 0 7 .weekday = .ok e.weekdays ∧
        e.daysIsWildcard = decide (day = star) ∧ e.weekdaysIsWildcard = decide (weekday = star) := by
  unfold parse at h
  simp only [if_neg hhead] at h
  split at h
  · rename_i minute hour day month weekday hwords
    obtain ⟨minutes, hminutes, h⟩ := bind_eq_ok.1 h
    obtain ⟨hours, hhours, h⟩ := bind_eq_ok.1 h
    obtain ⟨days, hdays, h⟩ := bind_eq_ok.1 h
    obtain ⟨months, hmonths, h⟩ := bind_eq_ok.1 h
    obtain ⟨weekdays, hweekdays, h⟩ := bind_eq_ok.1 h
    cases h
    exact ⟨minute, hour, day, month, weekday, hwords, hminutes, hhours, hdays, hmonths, hweekdays, rfl, rfl⟩
  · cases h

theorem parseField_star {kind : NameKind} (hkind : kind.Fits min max) (hle : min ≤ max) (hw : max < w)
    (hweekday : kind ≠ .weekday) {bits : BitVec w} (h : parseField star min max kind = .ok bits) {v : Nat} (hmin : min ≤ v)
    (hmax : v ≤ max) : bits.getLsbD v = true := by
  have hsplit : star.splitOn comma = [star] := by decide
  rw [getLsbD_parseField hkind hle hw hweekday h]
  refine ⟨star, by rw [hsplit]; exact List.mem_singleton_self _, _, parsePart_star, hmin, hmax, Nat.one_dvd _⟩

theorem parseWeekdays_star {bits : BitVec 8} (h : parseField star 0 7 .weekday = .ok bits) {v : Nat} (hv : v < 7) :
    bits.getLsbD v = true := by
  have hsplit : star.splitOn comma = [star] := by decide
  rw [getLsbD_parseWeekdays h]
  refine ⟨hv, .inl ⟨star, by rw [hsplit]; exact List.mem_singleton_self _, _, parsePart_star, Nat.zero_le v, ?_, Nat.one_dvd _⟩⟩
  exact Nat.le_of_lt hv

theorem nickname_valid {expr : List UInt8} (h : parseNickname expr = some e) : e.Valid := by
  unfold parseNickname at h
  split_ifs at h
  all_goals
    cases h
    exact ⟨by decide, by decide, by decide, by decide, by decide, ⟨0, by decide⟩, ⟨0, by decide⟩, ⟨1, by decide⟩,
      ⟨1, by decide⟩, ⟨0, by decide⟩, by decide, by decide⟩

theorem nickname_wildcard {expr : List UInt8} (h : parseNickname expr = some e) :
    e.daysIsWildcard = true ∨ e.weekdaysIsWildcard = true := by
  unfold parseNickname at h
  split_ifs at h
  all_goals
    cases h
    decide

theorem parse_nickname (h : parse input = .ok e)
    (hhead : (trim input).head? = some '@'.toUInt8) : parseNickname (trim input) = some e := by
  unfold parse at h
  simp only [if_pos hhead] at h
  cases hname : parseNickname (trim input) with
  | none =>
    rw [hname] at h
    cases h
  | some e' =>
    rw [hname] at h
    cases h
    rfl

/-- An expression is read from its five fields. -/
theorem parse_readFrom (h : parse input = .ok e)
    (hhead : (trim input).head? ≠ some '@'.toUInt8) : ∃ minute hour day month weekday,
      words (trim input) = [minute, hour, day, month, weekday] ∧ ReadFrom e minute hour day month weekday := by
  obtain ⟨minute, hour, day, month, weekday, hwords, hminute, hhour, hday, hmonth, hweekday, hdays, hweekdays⟩ :=
    parse_fields h hhead
  exact ⟨minute, hour, day, month, weekday, hwords, getLsbD_parseField fits_none (by decide) (by decide) (by decide) hminute,
    getLsbD_parseField fits_none (by decide) (by decide) (by decide) hhour,
    getLsbD_parseField fits_none (by decide) (by decide) (by decide) hday,
    getLsbD_parseField fits_month (by decide) (by decide) (by decide) hmonth, getLsbD_parseWeekdays hweekday, hdays, hweekdays⟩

/-- What is read is within bounds. -/
theorem parse_valid (h : parse input = .ok e) : e.Valid := by
  by_cases hhead : (trim input).head? = some '@'.toUInt8
  · exact nickname_valid (parse_nickname h hhead)
  · obtain ⟨minute, hour, day, month, weekday, -, hminute, hhour, hday, hmonth, hweekday, hdays, hweekdays⟩ :=
      parse_fields h hhead
    have minutes := getLsbD_parseField fits_none (by decide) (by decide) (by decide) hminute
    have hours := getLsbD_parseField fits_none (by decide) (by decide) (by decide) hhour
    have days := getLsbD_parseField fits_none (by decide) (by decide) (by decide) hday
    have months := getLsbD_parseField fits_month (by decide) (by decide) (by decide) hmonth
    have weekdays := getLsbD_parseWeekdays hweekday
    have hdaysWithin : Within e.days 1 31 := fun i hi => ((days i).1 hi).within fits_none (by decide)
    have hweekdaysWithin : Within e.weekdays 0 6 := fun i hi => ⟨Nat.zero_le i, Nat.le_of_lt_succ ((weekdays i).1 hi).1⟩
    refine ⟨fun i hi => ((minutes i).1 hi).within fits_none (by decide),
      fun i hi => ((hours i).1 hi).within fits_none (by decide), hdaysWithin,
      fun i hi => ((months i).1 hi).within fits_month (by decide), hweekdaysWithin,
      (exists_admits fits_none (by decide) hminute).imp fun i hi => (minutes i).2 hi,
      (exists_admits fits_none (by decide) hhour).imp fun i hi => (hours i).2 hi,
      (exists_admits fits_none (by decide) hday).imp fun i hi => (days i).2 hi,
      (exists_admits fits_month (by decide) hmonth).imp fun i hi => (months i).2 hi, ?_, ?_, ?_⟩
    · obtain ⟨v, hv⟩ := exists_admits fits_weekday (by decide) hweekday
      have hle := (hv.within fits_weekday (by decide)).2
      rcases Nat.lt_or_eq_of_le hle with hlt | rfl
      · exact ⟨v, (weekdays v).2 ⟨hlt, .inl hv⟩⟩
      · exact ⟨0, (weekdays 0).2 ⟨by decide, .inr ⟨rfl, hv⟩⟩⟩
    · intro hflag
      rw [hdays, decide_eq_true_eq] at hflag
      subst hflag
      exact hdaysWithin.countOnes_eq_iff.2 fun i hlo hhi =>
        parseField_star fits_none (by decide) (by decide) (by decide) hday hlo hhi
    · intro hflag
      rw [hweekdays, decide_eq_true_eq] at hflag
      subst hflag
      exact hweekdaysWithin.countOnes_eq_iff.2 fun i _ hhi => parseWeekdays_star hweekday (Nat.lt_succ_of_le hhi)

/-! ### What is written -/

/-- The expression, with wildcards where all of the numbers are there -/
def CronExpression.normalised (e : CronExpression) : CronExpression :=
  { e with daysIsWildcard := countOnes e.days = 31, weekdaysIsWildcard := countOnes e.weekdays = 7 }

/-- A text of plain bytes -/
def PlainField (field : List UInt8) : Prop := field ≠ [] ∧ ∀ x ∈ field, IsPlain x

theorem PlainField.not_blank {field : List UInt8} (h : PlainField field) : ∀ x ∈ field, isBlank x = false :=
  fun x hx => (h.2 x hx).not_blank

theorem formatBitfield_plainField {bits : BitVec w} (hle : min ≤ max) (hmax : max < 60)
    (hwithin : Within bits min max) (hone : ∃ i, bits.getLsbD i = true) : PlainField (formatBitfield bits min max) :=
  ⟨formatBitfield_ne_nil hle hmax hwithin hone, fun _ hx => formatBitfield_plain hle hmax hx⟩

/-- What is written is read back, normalised. -/
theorem parse_formatNumeric (h : e.Valid) :
    ∃ text, formatNumeric e = .ok text ∧ parse text = .ok e.normalised := by
  let minute := formatBitfield e.minutes 0 59
  let hour := formatBitfield e.hours 0 23
  let day := formatBitfield e.days 1 31
  let month := formatBitfield e.months 1 12
  let weekday := formatBitfield e.weekdays 0 6
  let text := minute ++ blank ++ hour ++ blank ++ day ++ blank ++ month ++ blank ++ weekday
  have hminute : PlainField minute := formatBitfield_plainField (by decide) (by decide) h.minutes h.minute
  have hhour : PlainField hour := formatBitfield_plainField (by decide) (by decide) h.hours h.hour
  have hday : PlainField day := formatBitfield_plainField (by decide) (by decide) h.days h.day
  have hmonth : PlainField month := formatBitfield_plainField (by decide) (by decide) h.months h.month
  have hweekday : PlainField weekday := formatBitfield_plainField (by decide) (by decide) h.weekdays h.weekday
  have hlength : text.length ≤ 512 := by
    have hminute : minute.length ≤ 3 * (59 - 0 + 1) := length_formatBitfield (by decide) (by decide)
    have hhour : hour.length ≤ 3 * (23 - 0 + 1) := length_formatBitfield (by decide) (by decide)
    have hday : day.length ≤ 3 * (31 - 1 + 1) := length_formatBitfield (by decide) (by decide)
    have hmonth : month.length ≤ 3 * (12 - 1 + 1) := length_formatBitfield (by decide) (by decide)
    have hweekday : weekday.length ≤ 3 * (6 - 0 + 1) := length_formatBitfield (by decide) (by decide)
    have hblank : blank.length = 1 := rfl
    simp only [text, List.length_append, hblank]
    omega
  have hplain : ∀ field ∈ [minute, hour, day, month, weekday], field ≠ [] ∧ ∀ x ∈ field, isBlank x = false := by
    simp only [List.forall_mem_cons]
    exact ⟨⟨hminute.1, hminute.not_blank⟩, ⟨hhour.1, hhour.not_blank⟩, ⟨hday.1, hday.not_blank⟩,
      ⟨hmonth.1, hmonth.not_blank⟩, ⟨hweekday.1, hweekday.not_blank⟩, fun _ hmem => absurd hmem List.not_mem_nil⟩
  have hassoc : text = minute ++ (blank ++ hour ++ blank ++ day ++ blank ++ month ++ blank) ++ weekday := by
    simp only [text, List.append_assoc]
  have htrim : trim text = text := by
    rw [hassoc]
    exact trim_fields hminute.1 hweekday.1 hminute.not_blank hweekday.not_blank
  have hhead : text.head? ≠ some '@'.toUInt8 := by
    rw [hassoc, List.append_assoc]
    exact head_fields hminute.1 hminute.2
  have hwords : words text = [minute, hour, day, month, weekday] := words_fields hplain
  refine ⟨text, if_pos hlength, ?_⟩
  have hdayStar : day = star ↔ countOnes e.days = 31 := formatBitfield_eq_star (by decide) (by decide)
  have hweekdayStar : weekday = star ↔ countOnes e.weekdays = 7 := formatBitfield_eq_star (by decide) (by decide)
  have hminutes : parseField minute 0 59 .none = .ok e.minutes :=
    parseField_formatBitfield (by decide) (by decide) (by decide) (by decide) h.minutes h.minute
  have hhours : parseField hour 0 23 .none = .ok e.hours :=
    parseField_formatBitfield (by decide) (by decide) (by decide) (by decide) h.hours h.hour
  have hdays : parseField day 1 31 .none = .ok e.days :=
    parseField_formatBitfield (by decide) (by decide) (by decide) (by decide) h.days h.day
  have hmonths : parseField month 1 12 .month = .ok e.months :=
    parseField_formatBitfield (by decide) (by decide) (by decide) (by decide) h.months h.month
  have hweekdays : parseField weekday 0 7 .weekday = .ok e.weekdays := parseWeekdays_formatBitfield h.weekdays h.weekday
  unfold parse
  simp only [htrim, if_neg hhead, hwords, hminutes, hhours, hdays, hmonths, hweekdays]
  unfold CronExpression.normalised
  simp only [← decide_eq_decide.2 hdayStar, ← decide_eq_decide.2 hweekdayStar]
  rfl

/-! ### Schedules -/

theorem bitSet_eq (set : BitVec w) (pos : Nat) : bitSet set pos = set.getLsbD pos := by
  unfold bitSet
  rw [BitVec.and_one_eq_setWidth_ofBool_getLsbD, BitVec.getLsbD_ushiftRight, Nat.add_zero]
  cases hbit : set.getLsbD pos with
  | false => simp
  | true =>
    have hw : 0 < w := Nat.zero_lt_of_lt (BitVec.lt_of_getLsbD hbit)
    rw [bne_iff_ne]
    intro h
    have hzero := congrArg (BitVec.getLsbD · 0) h
    simp [hw] at hzero

/-- Neither field is a wildcard, and one of them has all numbers, while the other lacks a day that some month has. -/
def CronExpression.Narrowed (e : CronExpression) : Prop :=
  e.daysIsWildcard = false ∧ e.weekdaysIsWildcard = false ∧
    ((countOnes e.days = 31 ∧ ∃ w < 7, e.weekdays.getLsbD w = false) ∨
      (countOnes e.weekdays = 7 ∧ ∃ m d, e.months.getLsbD m = true ∧ 1 ≤ d ∧ d ≤ daysInMonth 0 m ∧ e.days.getLsbD d = false))

variable {e : CronExpression}

/-- All days match, or all weekdays. -/
theorem CronExpression.dayMatch_of_all (h : e.Valid) (hdays : e.daysIsWildcard = false) (hweekdays : e.weekdaysIsWildcard = false)
    (hall : countOnes e.days = 31 ∨ countOnes e.weekdays = 7) (t : DateTime) : e.dayMatch t = true := by
  unfold CronExpression.dayMatch
  simp only [hdays, hweekdays, bitSet_eq, Bool.not_false, Bool.and_self, if_true, Bool.or_eq_true]
  rcases hall with hall | hall
  · exact .inl (h.days.countOnes_eq_iff.1 hall t.day t.day_pos t.day_le_31)
  · exact .inr (h.weekdays.countOnes_eq_iff.1 hall t.weekday (Nat.zero_le _) (Nat.le_of_lt_succ t.weekday_lt))

theorem CronExpression.dayMatch_normalised (hall : countOnes e.days = 31 ∨ countOnes e.weekdays = 7) (t : DateTime) :
    e.normalised.dayMatch t = (e.days.getLsbD t.day && e.weekdays.getLsbD t.weekday) := by
  have hflags : (!e.normalised.daysIsWildcard && !e.normalised.weekdaysIsWildcard) = false := by
    unfold CronExpression.normalised
    rcases hall with hall | hall <;> simp [hall]
  unfold CronExpression.dayMatch
  simp only [hflags, bitSet_eq, Bool.false_eq_true, if_false]
  rfl

/-- Flags that are not changed, or both of fields that have all numbers -/
theorem CronExpression.dayMatch_eq_normalised (h : e.Valid) (hnarrowed : ¬e.Narrowed) (t : DateTime)
    (hmonth : e.months.getLsbD t.month = true) : e.normalised.dayMatch t = e.dayMatch t := by
  by_cases hall : countOnes e.days = 31 ∨ countOnes e.weekdays = 7
  · rw [dayMatch_normalised hall]
    by_cases hflags : e.daysIsWildcard = false ∧ e.weekdaysIsWildcard = false
    · rw [dayMatch_of_all h hflags.1 hflags.2 hall, Bool.and_eq_true]
      unfold CronExpression.Narrowed at hnarrowed
      simp only [hflags, true_and, not_or, not_and, not_exists, Bool.not_eq_false] at hnarrowed
      rcases hall with hall | hall
      · exact ⟨h.days.countOnes_eq_iff.1 hall t.day t.day_pos t.day_le_31, hnarrowed.1 hall t.weekday t.weekday_lt⟩
      · exact ⟨hnarrowed.2 hall t.month t.day hmonth t.day_pos t.day_le_longest,
          h.weekdays.countOnes_eq_iff.1 hall t.weekday (Nat.zero_le _) (Nat.le_of_lt_succ t.weekday_lt)⟩
    · have hold : (!e.daysIsWildcard && !e.weekdaysIsWildcard) = false := by
        revert hflags
        cases e.daysIsWildcard <;> cases e.weekdaysIsWildcard <;> simp
      unfold CronExpression.dayMatch
      simp only [hold, bitSet_eq, Bool.false_eq_true, if_false]
  · have hsame : e.normalised = e := by
      have hdays : e.daysIsWildcard = false := Bool.eq_false_iff.2 fun hflag => hall (.inl (h.all_days hflag))
      have hweekdays : e.weekdaysIsWildcard = false := Bool.eq_false_iff.2 fun hflag => hall (.inr (h.all_weekdays hflag))
      rw [not_or] at hall
      cases e
      simp only at hdays hweekdays hall
      simp only [CronExpression.normalised, hdays, hweekdays, hall.1, hall.2, decide_false]
    rw [hsame]

theorem CronExpression.matches_normalised_iff (h : e.Valid) :
    (∀ t, e.normalised.matches t = e.matches t) ↔ ¬e.Narrowed := by
  constructor
  · intro hsame hnarrowed
    obtain ⟨hdays, hweekdays, hlacks⟩ := hnarrowed
    obtain ⟨hour, hhour⟩ := h.hour
    obtain ⟨minute, hminute⟩ := h.minute
    have hhourLt := (h.hours hour hhour).2
    have hminuteLt := (h.minutes minute hminute).2
    -- one time that matches before, and not afterwards
    have hdiffers : ∀ (t : DateTime), t.hour = hour → t.minute = minute → e.months.getLsbD t.month = true →
        (countOnes e.days = 31 ∨ countOnes e.weekdays = 7) →
          (e.days.getLsbD t.day && e.weekdays.getLsbD t.weekday) = true := by
      intro t hthour htminute htmonth hall
      have heq := hsame t
      unfold CronExpression.matches at heq
      rw [dayMatch_normalised hall, dayMatch_of_all h hdays hweekdays hall] at heq
      simp only [bitSet_eq, CronExpression.normalised, htmonth, hthour, htminute, hhour, hminute, Bool.and_true, Bool.true_and]
        at heq
      exact heq
    rcases hlacks with ⟨hall, w, hw, hlacks⟩ | ⟨hall, m, d, hmonth, hpos, hle, hlacks⟩
    · obtain ⟨month, hmonth⟩ := h.month
      have hmonthWithin := h.months month hmonth
      obtain ⟨day, hpos, hle, hday⟩ := exists_day_of_weekday 0 month hw
      let t : DateTime := ⟨0, month, day, hour, minute, hmonthWithin.1, hmonthWithin.2, hpos,
        Nat.le_trans hle (Nat.le_trans (by decide) (daysInMonth_ge 0 month)), Nat.lt_succ_of_le hhourLt, Nat.lt_succ_of_le hminuteLt⟩
      have hboth := hdiffers t rfl rfl hmonth (.inl hall)
      have hweekday : t.weekday = w := hday
      rw [hweekday, hlacks, Bool.and_false] at hboth
      cases hboth
    · have hmonthWithin := h.months m hmonth
      let t : DateTime := ⟨0, m, d, hour, minute, hmonthWithin.1, hmonthWithin.2, hpos, hle, Nat.lt_succ_of_le hhourLt,
        Nat.lt_succ_of_le hminuteLt⟩
      have hboth := hdiffers t rfl rfl hmonth (.inr hall)
      have hday : e.days.getLsbD t.day = false := hlacks
      rw [hday, Bool.false_and] at hboth
      cases hboth
  · intro hnarrowed t
    unfold CronExpression.matches
    cases hmonth : e.months.getLsbD t.month with
    | false =>
      simp only [bitSet_eq, CronExpression.normalised, hmonth, Bool.false_and]
    | true =>
      rw [dayMatch_eq_normalised h hnarrowed t hmonth]
      rfl

/-! ### Which texts keep their schedule -/

/-- The text that is written of an expression is read, and matches the same minutes. -/
def KeepsSchedule (e : CronExpression) : Prop :=
  ∃ text e', formatNumeric e = .ok text ∧ parse text = .ok e' ∧ ∀ t, e'.matches t = e.matches t

/-- Neither the field of the days nor that of the weekdays is `*`, and one of them has all numbers, while the other lacks a
day that some month has. -/
def Clash (input : List UInt8) : Prop :=
  (trim input).head? ≠ some '@'.toUInt8 ∧ ∃ minute hour day month weekday,
    words (trim input) = [minute, hour, day, month, weekday] ∧ day ≠ star ∧ weekday ≠ star ∧
      (((∀ d, 1 ≤ d → d ≤ 31 → Admits 1 31 .none day d) ∧ ∃ w < 7, ¬AdmitsWeekday weekday w) ∨
        ((∀ w < 7, AdmitsWeekday weekday w) ∧
          ∃ m d, Admits 1 12 .month month m ∧ 1 ≤ d ∧ d ≤ daysInMonth 0 m ∧ ¬Admits 1 31 .none day d))

theorem ReadFrom.narrowed_iff {minute hour day month weekday : List UInt8} (hread : ReadFrom e minute hour day month weekday)
    (h : e.Valid) : e.Narrowed ↔ day ≠ star ∧ weekday ≠ star ∧
      (((∀ d, 1 ≤ d → d ≤ 31 → Admits 1 31 .none day d) ∧ ∃ w < 7, ¬AdmitsWeekday weekday w) ∨
        ((∀ w < 7, AdmitsWeekday weekday w) ∧
          ∃ m d, Admits 1 12 .month month m ∧ 1 ≤ d ∧ d ≤ daysInMonth 0 m ∧ ¬Admits 1 31 .none day d)) := by
  have hallDays : countOnes e.days = 31 ↔ ∀ d, 1 ≤ d → d ≤ 31 → Admits 1 31 .none day d := by
    simp only [← hread.days]
    exact h.days.countOnes_eq_iff
  have hallWeekdays : countOnes e.weekdays = 7 ↔ ∀ w < 7, AdmitsWeekday weekday w := by
    refine h.weekdays.countOnes_eq_iff.trans ⟨fun hall w hw => ?_, fun hall w _ hw => ?_⟩
    · exact ((hread.weekdays w).1 (hall w (Nat.zero_le w) (Nat.le_of_lt_succ hw))).2
    · exact (hread.weekdays w).2 ⟨Nat.lt_succ_of_le hw, hall w (Nat.lt_succ_of_le hw)⟩
  have hweekday : (∃ w < 7, e.weekdays.getLsbD w = false) ↔ ∃ w < 7, ¬AdmitsWeekday weekday w := by
    refine exists_congr fun w => and_congr_right fun hw => ?_
    rw [← Bool.not_eq_true, hread.weekdays, not_and]
    exact ⟨fun hlacks => hlacks hw, fun hlacks _ => hlacks⟩
  unfold CronExpression.Narrowed
  rw [hread.daysIsWildcard, hread.weekdaysIsWildcard, decide_eq_false_iff_not, decide_eq_false_iff_not, hallDays, hallWeekdays,
    hweekday]
  simp only [hread.months, ← Bool.not_eq_true, hread.days]

theorem clash_iff (h : parse input = .ok e) : Clash input ↔ e.Narrowed := by
  by_cases hhead : (trim input).head? = some '@'.toUInt8
  · refine ⟨fun hclash => absurd hhead hclash.1, fun hnarrowed => ?_⟩
    have hwildcard : e.daysIsWildcard = true ∨ e.weekdaysIsWildcard = true := nickname_wildcard (parse_nickname h hhead)
    rcases hwildcard with hwildcard | hwildcard
    · rw [hnarrowed.1] at hwildcard
      cases hwildcard
    · rw [hnarrowed.2.1] at hwildcard
      cases hwildcard
  · obtain ⟨minute, hour, day, month, weekday, hwords, hread⟩ := parse_readFrom h hhead
    rw [hread.narrowed_iff (parse_valid h)]
    constructor
    · intro hclash
      obtain ⟨-, minute', hour', day', month', weekday', hwords', hclash⟩ := hclash
      cases hwords.symm.trans hwords'
      exact hclash
    · intro hclash
      exact ⟨hhead, minute, hour, day, month, weekday, hwords, hclash⟩

theorem keepsSchedule_iff (input : List UInt8) (e : CronExpression) (h : parse input = .ok e) :
    KeepsSchedule e ↔ ¬Clash input := by
  obtain ⟨text, htext, hparse⟩ := parse_formatNumeric (parse_valid h)
  rw [clash_iff h, ← CronExpression.matches_normalised_iff (parse_valid h)]
  constructor
  · intro hkeeps
    obtain ⟨text', e', htext', hparse', hsame⟩ := hkeeps
    cases htext.symm.trans htext'
    cases hparse.symm.trans hparse'
    exact hsame
  · intro hsame
    exact ⟨text, e.normalised, htext, hparse, hsame⟩

/-- All days of all months, and Mondays: what is written of it is Mondays. -/
def everyDayOrMonday : CronExpression := ⟨1, 1, allDays, allMonths, 2, false, false⟩

theorem keepsSchedule_iff_monday : ¬Clash (ascii "0 0 * * 1") ∧ KeepsSchedule ⟨1, 1, allDays, allMonths, 2, true, false⟩ := by
  have hparse : parse (ascii "0 0 * * 1") = .ok ⟨1, 1, allDays, allMonths, 2, true, false⟩ := by decide +kernel
  have hclash : ¬Clash (ascii "0 0 * * 1") := by
    rw [clash_iff hparse]
    exact fun hnarrowed => absurd hnarrowed.1 (by decide)
  exact ⟨hclash, (keepsSchedule_iff _ _ hparse).2 hclash⟩

/-- The first of January 2026 is a Thursday. -/
theorem exists_not_keepsSchedule : ∃ input e, parse input = .ok e ∧ ¬KeepsSchedule e := by
  refine ⟨ascii "0 0 1-31 * 1", everyDayOrMonday, by decide +kernel, fun hkeeps => ?_⟩
  obtain ⟨text, e', htext, hparse, hsame⟩ := hkeeps
  have hwritten : formatNumeric everyDayOrMonday = .ok (ascii "0 0 * * 1") := by decide +kernel
  cases hwritten.symm.trans htext
  have hread : parse (ascii "0 0 * * 1") = .ok ⟨1, 1, allDays, allMonths, 2, true, false⟩ := by decide +kernel
  cases hread.symm.trans hparse
  have hthursday := hsame ⟨2026, 1, 1, 0, 0, by decide, by decide, by decide, by decide, by decide, by decide⟩
  exact absurd hthursday (by decide +kernel)

end Funbun.Cron
