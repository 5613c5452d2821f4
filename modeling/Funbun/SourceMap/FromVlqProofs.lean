import Funbun.SourceMap.FromVlq
import Funbun.SourceMap.InternalProofs

/-! A mappings text is read in the same way into a list and into windows.

The calls of the builder so far stand for the mappings of the list. The two readers part only at a source index that is not
below the number of sources: the list is refused and the windows go on. -/
namespace Funbun.SourceMap.Internal
open Library

def inRange (n : Int) : Prop := 0 ≤ n ∧ n ≤ 2147483647

instance (n : Int) : Decidable (inRange n) := inferInstanceAs (Decidable (_ ∧ _))

/-! ### Numbers -/

theorem lt_of_decodeDigits (start : Nat) (bytes : List UInt8) (i shift : Nat) {vlq : Nat} (h : vlq < UInt32.size) :
    Vlq.InRange (Vlq.decodeDigits start bytes i shift vlq).value := by
  induction bytes generalizing i shift vlq with
  | nil =>
    show (0 : Int).natAbs < 2147483648
    decide
  | cons byte bytes ih =>
    have hor : vlq ||| ((Vlq.lut (byte &&& 0x7f) &&& 31) <<< (shift &&& 31)) % UInt32.size < UInt32.size :=
      Nat.or_lt_two_pow (n := 32) h (Nat.mod_lt _ (by decide))
    simp only [Vlq.decodeDigits]
    split
    · have hhalf (n : Nat) (hn : n < UInt32.size) : n >>> 1 < 2147483648 := by
        rw [Nat.shiftRight_eq_div_pow]
        have : n < 4294967296 := hn
        omega
      have := hhalf _ hor
      unfold Vlq.InRange
      simp only
      split
      · omega
      · omega
    · exact ih _ _ hor

theorem inRange_decode (bytes : List UInt8) (start : Nat) : Vlq.InRange (Vlq.decode bytes start).value :=
  lt_of_decodeDigits _ _ _ _ (by decide)

/-- Both readers refuse a number, or both read it. A value is invalid in the list if it is negative, or for a reason of its
own. -/
theorem number_or (remain : List UInt8) {value : Int} (hvalue : inRange value) :
    (VlqReader.number remain value = .error .invalidSourceMap ∧
      ∀ loc missing msg err isInvalid, (∀ n < 0, isInvalid n = true) →
        ∃ e, readField loc remain value missing msg err isInvalid = .error e) ∨
    ∃ next k, inRange next ∧ VlqReader.number remain value = .ok (next, remain.drop k) ∧
      ∀ loc missing msg err isInvalid, ∃ delta, readField loc remain value missing msg err isInvalid =
        if isInvalid next then .error ⟨msg, err, next, loc⟩ else .ok (delta, next, remain.drop k) := by
  have hdelta := inRange_decode remain 0
  unfold Vlq.InRange at hdelta
  obtain ⟨hlow, hhigh⟩ := hvalue
  by_cases hstart : (Vlq.decode remain 0).start = 0
  · left
    refine ⟨if_pos hstart, fun loc missing msg err isInvalid _ => ⟨_, if_pos hstart⟩⟩
  · by_cases hnext : -2147483648 ≤ value + (Vlq.decode remain 0).value ∧
        value + (Vlq.decode remain 0).value ≤ 2147483647 ∧ 0 ≤ value + (Vlq.decode remain 0).value
    · right
      refine ⟨value + (Vlq.decode remain 0).value, (Vlq.decode remain 0).start, ⟨hnext.2.2, hnext.2.1⟩, ?_, ?_⟩
      · unfold VlqReader.number accumulate
        simp only [if_neg hstart, if_pos hnext]
        rfl
      · intro loc missing msg err isInvalid
        refine ⟨(Vlq.decode remain 0).value, ?_⟩
        unfold readField
        simp only [if_neg hstart]
        rw [i32_of_range (by unfold Int32Range; omega)]
    · left
      constructor
      · unfold VlqReader.number accumulate
        simp only [if_neg hstart, if_neg hnext]
        rfl
      · intro loc missing msg err isInvalid hinvalid
        have hwrap : i32 (value + (Vlq.decode remain 0).value) < 0 := by
          unfold i32
          have hsize : ((UInt32.size : Nat) : Int) = 4294967296 := rfl
          rw [Int.bmod_def, hsize]
          split <;> omega
        unfold readField
        simp only [if_neg hstart, hinvalid _ hwrap, if_true]
        exact ⟨_, rfl⟩

/-- The index of a name is read by both, and dropped. -/
theorem name_or (bytes remain : List UInt8) (s : Parser) :
    (VlqReader.name remain = .error .invalidSourceMap ∧ ∃ e, readName ⟨false, false⟩ bytes remain s = .error e) ∨
    ∃ k, VlqReader.name remain = .ok (remain.drop k) ∧
      readName ⟨false, false⟩ bytes remain s = .ok (VlqReader.skipComma (remain.drop k), s) := by
  cases remain with
  | nil => exact .inr ⟨0, rfl, rfl⟩
  | cons c rest =>
    by_cases hcomma : c = comma
    · subst hcomma
      exact .inr ⟨0, rfl, rfl⟩
    · by_cases hsemicolon : c = semicolon
      · subst hsemicolon
        exact .inr ⟨0, rfl, rfl⟩
      · have hend : ¬(c :: rest = [] ∨ (c :: rest).head? = some comma ∨ (c :: rest).head? = some semicolon) := by
          simp [hcomma, hsemicolon]
        by_cases hstart : (Vlq.decode (c :: rest) 0).start = 0
        · left
          constructor
          · unfold VlqReader.name
            simp only [if_neg hend, if_pos hstart]
          · simp only [readName, if_neg hcomma, if_neg hsemicolon, if_pos hstart]
            exact ⟨_, rfl⟩
        · refine .inr ⟨(Vlq.decode (c :: rest) 0).start, ?_, ?_⟩
          · unfold VlqReader.name
            simp only [if_neg hend, if_neg hstart]
          · simp only [readName, if_neg hcomma, if_neg hsemicolon, if_neg hstart]
            rfl

/-! ### The fields behind the generated column -/

def Refused {ε α : Type} (x : Except ε α) : Prop := ∃ e, x = .error e

theorem Refused.bind {ε α β : Type} {x : Except ε α} (h : Refused x) (f : α → Except ε β) : Refused (x >>= f) := by
  obtain ⟨e, rfl⟩ := h
  exact ⟨e, rfl⟩

theorem refused_guard {ε α β : Type} {c : Prop} [Decidable c] {e : ε} {a : α} {f : α → Except ε β} (h : Refused (f a)) :
    Refused ((if c then .error e else .ok a) >>= f) := by
  split
  · exact ⟨e, rfl⟩
  · exact h

/-- A value that is not negative is valid. -/
theorem readField_ok {loc : Int} {remain rest : List UInt8} {value next delta : Int} {missing : ParseResultFail}
    {msg err : String} (hnext : 0 ≤ next)
    (h : readField loc remain value missing msg err (· < 0) =
      if decide (next < 0) = true then .error ⟨msg, err, next, loc⟩ else .ok (delta, next, rest)) :
    readField loc remain value missing msg err (· < 0) = .ok (delta, next, rest) := by
  rw [h, if_neg (by simpa using hnext)]

/-- What follows the generated column in `readMapping` -/
def readRest (sourcesCount : Int) (bytes remain : List UInt8) (s : Parser) : Except ParseResultFail (List UInt8 × Parser) := do
  let (remain, s) ← readOriginal sourcesCount bytes remain s
  let (remain, s) ← readName ⟨false, false⟩ bytes remain s
  return (remain, s.appendMapping)

theorem drop_suffix_of {a b : List UInt8} (h : a <:+ b) (k : Nat) : a.drop k <:+ b := (List.drop_suffix k a).trans h

theorem skipComma_suffix (remain : List UInt8) : VlqReader.skipComma remain <:+ remain := by
  unfold VlqReader.skipComma
  split
  · exact List.tail_suffix _
  · exact List.suffix_rfl

section Original
variable {sourcesCount : Int} {s : Parser} {r : VlqReader}

variable (sourcesCount) in
/-- The list is refused as well, or it is refused for its source index only. -/
theorem original_or (hsource : s.sourceIndex = r.sourceIndex) (horiginal : s.original = ⟨r.originalLine, r.originalColumn⟩)
    (hindex : inRange r.sourceIndex) (hline : inRange r.originalLine) (hcolumn : inRange r.originalColumn)
    (bytes remain : List UInt8) :
    (VlqReader.original remain r = .error .invalidSourceMap ∧ Refused (readRest sourcesCount bytes remain s)) ∨
    ∃ sourceIndex originalLine originalColumn rest, inRange sourceIndex ∧ inRange originalLine ∧ inRange originalColumn ∧
      rest <:+ remain ∧
      VlqReader.original remain r = .ok (rest,
        { r with
          sourceIndex, originalLine, originalColumn
          maxOriginalLine := max r.maxOriginalLine originalLine
          builder := r.builder.appendMapping ⟨0, r.generatedColumn, sourceIndex, originalLine, originalColumn⟩ }) ∧
      (sourcesCount ≤ sourceIndex → Refused (readRest sourcesCount bytes remain s)) ∧
      (sourceIndex < sourcesCount → readRest sourcesCount bytes remain s =
        .ok (rest, Parser.appendMapping {s with sourceIndex, original := ⟨originalLine, originalColumn⟩})) := by
  have hlines : s.original.lines = r.originalLine := congrArg LineColumnOffset.lines horiginal
  have hcolumns : s.original.columns = r.originalColumn := congrArg LineColumnOffset.columns horiginal
  have hnegative : ∀ n < 0, decide ((n : Int) < 0) = true := fun n hn => decide_eq_true hn
  unfold readRest readOriginal VlqReader.original
  rw [hsource, hlines, hcolumns]
  rcases number_or remain hindex with ⟨hnumber, hfield⟩ | ⟨source, k₁, hin₁, hnumber₁, hfield₁⟩
  · left
    rw [hnumber]
    refine ⟨rfl, ?_⟩
    apply Refused.bind
    apply Refused.bind
    exact hfield _ _ _ _ _ fun n hn => by simp [hn]
  obtain ⟨_, hfield₁⟩ := hfield₁ (location bytes remain) ⟨"Invalid source index delta", "InvalidSourceIndexDelta", 0, -1⟩
    "Invalid source index value" "InvalidSourceIndexValue" fun value => value < 0 || sourcesCount ≤ value
  rw [hnumber₁, hfield₁]
  simp only [bind_assoc]
  rcases number_or (remain.drop k₁) hline with ⟨hnumber, hfield⟩ | ⟨line, k₂, hin₂, hnumber₂, hfield₂⟩
  · left
    constructor
    · show (VlqReader.number _ _ >>= _) = _
      rw [hnumber]
      rfl
    · apply refused_guard
      apply Refused.bind
      exact hfield _ _ _ _ _ hnegative
  obtain ⟨_, hfield₂⟩ := hfield₂ (location bytes (remain.drop k₁)) ⟨"Missing original line", "MissingOriginalLine", 0, -1⟩
    "Invalid original line value" "InvalidOriginalLineValue" (· < 0)
  have hfield₂ := readField_ok hin₂.1 hfield₂
  rcases number_or ((remain.drop k₁).drop k₂) hcolumn with ⟨hnumber, hfield⟩ | ⟨column, k₃, hin₃, hnumber₃, hfield₃⟩
  · left
    constructor
    · show (VlqReader.number _ _ >>= _) = _
      rw [hnumber₂]
      show (VlqReader.number _ _ >>= _) = _
      rw [hnumber]
      rfl
    · apply refused_guard
      show Refused (readField _ _ _ _ _ _ _ >>= _)
      rw [hfield₂]
      show Refused (readField _ _ _ _ _ _ _ >>= _)
      apply Refused.bind
      exact hfield _ _ _ _ _ hnegative
  obtain ⟨_, hfield₃⟩ := hfield₃ (location bytes ((remain.drop k₁).drop k₂))
    ⟨"Missing original column value", "MissingOriginalColumnValue", r.originalColumn, -1⟩
    "Invalid original column value" "InvalidOriginalColumnValue" (· < 0)
  have hfield₃ := readField_ok hin₃.1 hfield₃
  rcases name_or bytes (((remain.drop k₁).drop k₂).drop k₃) {s with sourceIndex := source, original := ⟨line, column⟩} with
    ⟨hname, hfield⟩ | ⟨k₄, hname, hfield⟩
  · left
    constructor
    · show (VlqReader.number _ _ >>= _) = _
      rw [hnumber₂]
      show (VlqReader.number _ _ >>= _) = _
      rw [hnumber₃]
      show (VlqReader.name _ >>= _) = _
      rw [hname]
      rfl
    · apply refused_guard
      show Refused (readField _ _ _ _ _ _ _ >>= _)
      rw [hfield₂]
      show Refused (readField _ _ _ _ _ _ _ >>= _)
      rw [hfield₃]
      show Refused (readName _ _ _ _ >>= _)
      apply Refused.bind
      exact hfield
  · right
    refine ⟨source, line, column, VlqReader.skipComma ((((remain.drop k₁).drop k₂).drop k₃).drop k₄), hin₁, hin₂, hin₃, ?_, ?_,
      ?_, ?_⟩
    · apply (skipComma_suffix _).trans
      exact drop_suffix_of (drop_suffix_of (drop_suffix_of (List.drop_suffix _ _) _) _) _
    · show (VlqReader.number _ _ >>= _) = _
      rw [hnumber₂]
      show (VlqReader.number _ _ >>= _) = _
      rw [hnumber₃]
      show (VlqReader.name _ >>= _) = _
      rw [hname]
      rfl
    · intro hcount
      rw [if_pos (by simp [hcount])]
      exact ⟨_, rfl⟩
    · intro hcount
      have hvalid : ¬(decide (source < 0) || decide (sourcesCount ≤ source)) = true := by
        have := hin₁.1
        simp
        omega
      rw [if_neg hvalid]
      show (readField _ _ _ _ _ _ _ >>= _) = _
      rw [hfield₂]
      show (readField _ _ _ _ _ _ _ >>= _) = _
      rw [hfield₃]
      show (readName _ _ _ _ >>= _) = _
      rw [hfield]
      rfl

end Original

/-! ### Two readers side by side -/

/-- The calls of the builder so far -/
structure Traced (calls : List Call) (r : VlqReader) : Prop where
  builder : r.builder = calls.foldl Builder.call .init
  generatedColumn : inRange r.generatedColumn
  sourceIndex : inRange r.sourceIndex
  originalLine : inRange r.originalLine
  originalColumn : inRange r.originalColumn
  inBounds : ∀ m, .mapping m ∈ calls → m.InBounds

/-- The two readers at the same place -/
structure Agree (calls : List Call) (s : Parser) (r : VlqReader) : Prop extends Traced calls r where
  generated : s.generated = ⟨separators calls, r.generatedColumn⟩
  original : s.original = ⟨r.originalLine, r.originalColumn⟩
  source : s.sourceIndex = r.sourceIndex
  mapping : s.mapping = ⟨false, (appended 0 calls).map SourceMapState.toMapping⟩

theorem agree_init : Agree [] Parser.init VlqReader.init where
  builder := rfl
  generatedColumn := by decide
  sourceIndex := by decide
  originalLine := by decide
  originalColumn := by decide
  inBounds := fun m hm => absurd hm List.not_mem_nil
  generated := rfl
  original := rfl
  source := rfl
  mapping := rfl

/-- Whatever the list has come to, there is a parser that goes on from here. -/
theorem Traced.agree {calls : List Call} {r : VlqReader} (h : Traced calls r) : ∃ s, Agree calls s r :=
  ⟨⟨⟨separators calls, r.generatedColumn⟩, ⟨r.originalLine, r.originalColumn⟩, r.sourceIndex, 0, false,
    ⟨false, (appended 0 calls).map SourceMapState.toMapping⟩⟩, { h with
      generated := rfl
      original := rfl
      source := rfl
      mapping := rfl }⟩

/-! ### Line breaks -/

def VlqReader.newline (r : VlqReader) : VlqReader :=
  {r with builder := r.builder.appendLineSeparator, generatedColumn := 0}

theorem separators_of_ne {remain : List UInt8} (h : remain.head? ≠ some semicolon) (b : Builder) :
    VlqReader.separators remain b = (remain, b) := by
  cases remain with
  | nil => rfl
  | cons byte remain =>
    have hbyte : byte ≠ semicolon := fun heq => h (congrArg some heq)
    rw [VlqReader.separators, if_neg hbyte]

theorem lines_of_ne {remain : List UInt8} (h : remain.head? ≠ some semicolon) (r : VlqReader) :
    r.lines remain = (remain, r) := if_neg h

/-- The line breaks are counted one by one. -/
theorem lines_eq (remain : List UInt8) (r : VlqReader) : r.lines (semicolon :: remain) = r.newline.lines remain := by
  have hcons : r.lines (semicolon :: remain) =
      ((VlqReader.separators remain r.newline.builder).1,
        {r with builder := (VlqReader.separators remain r.newline.builder).2, generatedColumn := 0}) := by
    simp only [VlqReader.lines, List.head?_cons, if_true, VlqReader.separators]
    rfl
  rw [hcons]
  by_cases h : remain.head? = some semicolon
  · simp only [VlqReader.lines, if_pos h]
    rfl
  · rw [lines_of_ne h, separators_of_ne h]
    rfl

section Lines
variable {sourcesCount : Int} {calls : List Call} {s : Parser} {r : VlqReader}

theorem Agree.newline (h : Agree calls s r) (hlines : separators calls + 1 < 2147483648) :
    Agree (calls ++ [.lineSeparator]) s.newline r.newline where
  builder := by
    rw [List.foldl_append, ← h.builder]
    rfl
  generatedColumn := (by decide : inRange 0)
  sourceIndex := h.sourceIndex
  originalLine := h.originalLine
  originalColumn := h.originalColumn
  inBounds := by
    intro m hm
    rcases List.mem_append.1 hm with hm | hm
    · exact h.inBounds m hm
    · exact absurd (List.mem_singleton.1 hm) (by simp)
  generated := by
    have hnext : i32 ((separators calls : Int) + 1) = (separators calls : Int) + 1 :=
      i32_of_range (by unfold Int32Range; omega)
    show (⟨i32 (s.generated.lines + 1), 0⟩ : LineColumnOffset) = ⟨_, 0⟩
    rw [h.generated, separators_append, hnext]
    rfl
  original := h.original
  source := h.source
  mapping := by
    show s.mapping = _
    rw [h.mapping, appended_append]
    simp [appended]

/-- Both readers stop behind the line breaks. -/
theorem Agree.lines {remain : List UInt8} (h : Agree calls s r)
    (hlines : separators calls + remain.count semicolon < 2147483648) :
    ∃ k s' r', skipLines remain s = (remain.drop k, s') ∧ r.lines remain = (remain.drop k, r') ∧
      Agree (calls ++ List.replicate k .lineSeparator) s' r' ∧
      k + (remain.drop k).count semicolon = remain.count semicolon := by
  induction remain generalizing calls s r with
  | nil =>
    refine ⟨0, s, r, rfl, rfl, ?_, rfl⟩
    rw [List.replicate_zero, List.append_nil]
    exact h
  | cons byte remain ih =>
    by_cases hbyte : byte = semicolon
    · subst hbyte
      rw [List.count_cons_self] at hlines
      have hnext : separators (calls ++ [.lineSeparator]) = separators calls + 1 := separators_append _ _
      obtain ⟨k, s', r', hskip, hread, hagree, hcount⟩ := ih (h.newline (by omega)) (by omega)
      refine ⟨k + 1, s', r', ?_, ?_, ?_, ?_⟩
      · rw [skipLines_eq]
        exact hskip
      · rw [lines_eq]
        exact hread
      · rw [List.append_assoc] at hagree
        exact hagree
      · rw [List.count_cons_self, ← hcount, List.drop_succ_cons]
        omega
    · have hhead : (byte :: remain).head? ≠ some semicolon := fun heq => hbyte (Option.some.inj heq)
      refine ⟨0, s, r, skipLines_of_ne hhead s, lines_of_ne hhead r, ?_, Nat.zero_add _⟩
      rw [List.replicate_zero, List.append_nil]
      exact h

/-! ### One mapping -/

theorem Traced.append {m : SourceMapState} (h : Traced calls r) (hm : m.InBounds) {r' : VlqReader}
    (hbuilder : r'.builder = r.builder.appendMapping m) (hcolumn : inRange r'.generatedColumn)
    (hsource : inRange r'.sourceIndex) (hline : inRange r'.originalLine) (horiginal : inRange r'.originalColumn) :
    Traced (calls ++ [.mapping m]) r' where
  builder := by
    rw [hbuilder, h.builder, List.foldl_append]
    rfl
  generatedColumn := hcolumn
  sourceIndex := hsource
  originalLine := hline
  originalColumn := horiginal
  inBounds := by
    intro n hn
    rcases List.mem_append.1 hn with hn | hn
    · exact h.inBounds n hn
    · cases List.mem_singleton.1 hn
      exact hm

theorem Agree.move (h : Agree calls s r) {column : Int} (hcolumn : inRange column) (needsSort : Bool) :
    Agree calls {s with needsSort, generated := {s.generated with columns := column}}
      {r with generatedColumn := column} := by
  have hlines : s.generated.lines = separators calls := congrArg LineColumnOffset.lines h.generated
  exact { h with
    generatedColumn := hcolumn
    generated := by
      show (⟨s.generated.lines, column⟩ : LineColumnOffset) = ⟨_, column⟩
      rw [hlines] }

theorem inBounds_of_inRange {n : Int} (h : inRange n) : 0 ≤ n ∧ n < 2147483648 := by
  have hle : n ≤ 2147483647 := h.2
  exact ⟨h.1, by omega⟩

/-- What comes of a text from here on: the list is refused if a mapping has a source that does not exist. -/
def Outcome {α : Type} (sourcesCount : Int) (more : List Call) (x : Except ParseResultFail α) (P : α → Prop) : Prop :=
  ((∃ m, .mapping m ∈ more ∧ sourcesCount ≤ m.sourceIndex) ∧ Refused x) ∨
    (∀ m, .mapping m ∈ more → m.sourceIndex < sourcesCount) ∧ ∃ a, x = .ok a ∧ P a

theorem outcome_nil {α : Type} {x : Except ParseResultFail α} {P : α → Prop} {a : α} (hx : x = .ok a) (h : P a) :
    Outcome sourcesCount [] x P :=
  .inr ⟨fun _ hm => absurd hm List.not_mem_nil, a, hx, h⟩

/-- The mapping that is appended -/
theorem Agree.append {sourceIndex originalLine originalColumn : Int} (h : Agree calls s r) {r' : VlqReader}
    (htraced : Traced (calls ++ [.mapping ⟨0, r.generatedColumn, sourceIndex, originalLine, originalColumn⟩]) r')
    (hcolumn : r'.generatedColumn = r.generatedColumn) (hsource : r'.sourceIndex = sourceIndex)
    (hline : r'.originalLine = originalLine) (horiginal : r'.originalColumn = originalColumn) :
    Agree (calls ++ [.mapping ⟨0, r.generatedColumn, sourceIndex, originalLine, originalColumn⟩])
      (Parser.appendMapping {s with sourceIndex, original := ⟨originalLine, originalColumn⟩}) r' := by
  exact { htraced with
    generated := by
      show s.generated = _
      rw [h.generated, separators_append, hcolumn]
      rfl
    original := by
      rw [hline, horiginal]
      rfl
    source := hsource.symm
    mapping := by
      show s.mapping.append ⟨s.generated, ⟨originalLine, originalColumn⟩, sourceIndex, s.nameIndex⟩ = _
      rw [h.mapping, h.generated, appended_append, List.map_append, zero_add]
      rfl }

/-- One mapping is refused by both readers, or appended by both. -/
theorem Agree.mapping_or (h : Agree calls s r) (bytes remain : List UInt8) :
    (VlqReader.mapping remain r = .error .invalidSourceMap ∧
      Refused (readMapping ⟨false, false⟩ sourcesCount bytes remain s)) ∨
    ∃ rest r' more, VlqReader.mapping remain r = .ok (rest, r') ∧ rest <:+ remain ∧ separators more = 0 ∧
      Traced (calls ++ more) r' ∧
      Outcome sourcesCount more (readMapping ⟨false, false⟩ sourcesCount bytes remain s) fun a =>
        a.1 = rest ∧ Agree (calls ++ more) a.2 r' := by
  have hcolumns : s.generated.columns = r.generatedColumn := congrArg LineColumnOffset.columns h.generated
  unfold VlqReader.mapping readMapping readGenerated
  rw [hcolumns]
  rcases number_or remain h.generatedColumn with ⟨hnumber, hfield⟩ | ⟨column, k, hin, hnumber, hfield⟩
  · left
    rw [hnumber]
    refine ⟨rfl, ?_⟩
    apply Refused.bind
    apply Refused.bind
    exact hfield _ _ _ _ _ fun n hn => decide_eq_true hn
  obtain ⟨delta, hfield⟩ := hfield (location bytes remain)
    ⟨"Missing generated column value", "MissingGeneratedColumnValue", r.generatedColumn, -1⟩
    "Invalid generated column value" "InvalidGeneratedColumnValue" (· < 0)
  have hfield := readField_ok hin.1 hfield
  have hmoved := h.move hin (s.needsSort || decide (delta < 0))
  have hsuffix : remain.drop k <:+ remain := List.drop_suffix k remain
  rw [hnumber, hfield]
  generalize remain.drop k = tail at hsuffix
  cases tail with
  | nil =>
    refine .inr ⟨[], _, [], rfl, hsuffix, rfl, ?_, outcome_nil rfl ⟨rfl, ?_⟩⟩
    · rw [List.append_nil]
      exact hmoved.toTraced
    · rw [List.append_nil]
      exact hmoved
  | cons c rest =>
    by_cases hcomma : c = comma
    · subst hcomma
      refine .inr ⟨rest, _, [], rfl, (List.suffix_cons _ _).trans hsuffix, rfl, ?_, outcome_nil rfl ⟨rfl, ?_⟩⟩
      · rw [List.append_nil]
        exact hmoved.toTraced
      · rw [List.append_nil]
        exact hmoved
    by_cases hsemicolon : c = semicolon
    · subst hsemicolon
      refine .inr ⟨semicolon :: rest, _, [], rfl, hsuffix, rfl, ?_, outcome_nil rfl ⟨rfl, ?_⟩⟩
      · rw [List.append_nil]
        exact hmoved.toTraced
      · rw [List.append_nil]
        exact hmoved
    have hend : ¬(c :: rest = [] ∨ (c :: rest).head? = some comma ∨ (c :: rest).head? = some semicolon) := by
      simp [hcomma, hsemicolon]
    have hmapping : ∀ r' : VlqReader,
        (if c :: rest = [] ∨ (c :: rest).head? = some comma ∨ (c :: rest).head? = some semicolon then
          Except.ok (VlqReader.skipComma (c :: rest), r') else VlqReader.original (c :: rest) r') =
          VlqReader.original (c :: rest) r' := fun r' => if_neg hend
    have hread : ∀ s' : Parser,
        (if c = comma then Except.ok (rest, s') else if c = semicolon then Except.ok (c :: rest, s')
          else readRest sourcesCount bytes (c :: rest) s') = readRest sourcesCount bytes (c :: rest) s' := by
      intro s'
      rw [if_neg hcomma, if_neg hsemicolon]
    have hcases := original_or sourcesCount hmoved.source hmoved.original hmoved.sourceIndex hmoved.originalLine
      hmoved.originalColumn bytes (c :: rest)
    rw [← hmapping, ← hread] at hcases
    rcases hcases with hrefused | ⟨source, line, original, rest', hin₁, hin₂, hin₃, hrest, hok, hmax, hlt⟩
    · exact .inl hrefused
    · have hbounds : SourceMapState.InBounds ⟨0, column, source, line, original⟩ :=
        ⟨inBounds_of_inRange (by decide : inRange 0), inBounds_of_inRange hin, inBounds_of_inRange hin₁,
          inBounds_of_inRange hin₂, inBounds_of_inRange hin₃⟩
      have htraced := @Traced.append _ _ _ hmoved.toTraced hbounds
        { r with
          generatedColumn := column, sourceIndex := source, originalLine := line, originalColumn := original
          maxOriginalLine := max r.maxOriginalLine line
          builder := r.builder.appendMapping ⟨0, column, source, line, original⟩ } rfl hin hin₁ hin₂ hin₃
      refine .inr ⟨rest', _, [.mapping ⟨0, column, source, line, original⟩], hok, hrest.trans hsuffix, rfl, htraced, ?_⟩
      by_cases heq : sourcesCount ≤ source
      · exact .inl ⟨⟨_, List.mem_singleton.2 rfl, heq⟩, hmax heq⟩
      · have hlower : source < sourcesCount := Int.not_le.1 heq
        refine .inr ⟨?_, _, hlt hlower, rfl, hmoved.append htraced rfl rfl rfl rfl⟩
        intro m hm
        cases List.mem_singleton.1 hm
        exact hlower

/-! ### The whole text -/

theorem separators_lines (k : Nat) : separators (List.replicate k .lineSeparator) = k := by
  induction k with
  | zero => rfl
  | succ k ih => exact congrArg (· + 1) ih

theorem Outcome.lines {α : Type} {more : List Call} {x : Except ParseResultFail α} {P : α → Prop}
    (h : Outcome sourcesCount more x P) (k : Nat) : Outcome sourcesCount (List.replicate k .lineSeparator ++ more) x P := by
  have hmem : ∀ m, .mapping m ∈ List.replicate k .lineSeparator ++ more → .mapping m ∈ more := by
    intro m hm
    rcases List.mem_append.1 hm with hm | hm
    · exact nomatch List.eq_of_mem_replicate hm
    · exact hm
  rcases h with ⟨⟨m, hm, hmax⟩, hrefused⟩ | ⟨hlt, hok⟩
  · exact .inl ⟨⟨m, List.mem_append_right _ hm, hmax⟩, hrefused⟩
  · exact .inr ⟨fun m hm => hlt m (hmem m hm), hok⟩

/-- Induction on the turns. Once the list is refused, the windows go on by themselves. -/
theorem Agree.read_or (bytes : List UInt8) {n : Nat} {remain : List UInt8} (h : Agree calls s r)
    (hlines : separators calls + remain.count semicolon < 2147483648) :
    (VlqReader.read n remain r = .error .invalidSourceMap ∧
      Refused (parseMappings ⟨false, false⟩ sourcesCount bytes n remain s)) ∨
    ∃ r' more, VlqReader.read n remain r = .ok r' ∧ separators more ≤ remain.count semicolon ∧ Traced (calls ++ more) r' ∧
      Outcome sourcesCount more (parseMappings ⟨false, false⟩ sourcesCount bytes n remain s) fun s' =>
        Agree (calls ++ more) s' r' := by
  induction n generalizing calls s r remain with
  | zero =>
    refine .inr ⟨r, [], rfl, Nat.zero_le _, ?_, outcome_nil rfl ?_⟩
    · rw [List.append_nil]
      exact h.toTraced
    · rw [List.append_nil]
      exact h
  | succ n ih =>
    obtain ⟨k, s₁, r₁, hskip, hread, h₁, hcount⟩ := h.lines hlines
    have hk := separators_lines k
    simp only [VlqReader.read, parseMappings, hskip, hread]
    generalize remain.drop k = tail at hcount
    by_cases htail : tail = []
    · rw [if_pos htail, if_pos htail]
      refine .inr ⟨r₁, _, rfl, by omega, h₁.toTraced, .inr ⟨fun m hm => ?_, s₁, rfl, h₁⟩⟩
      cases List.eq_of_mem_replicate hm
    rw [if_neg htail, if_neg htail]
    rcases h₁.mapping_or bytes tail with
      ⟨hmapping, hrefused⟩ | ⟨rest, r₂, new, hmapping, hsuffix, hnew, htraced, houtcome⟩
    · left
      rw [hmapping]
      exact ⟨rfl, hrefused.bind _⟩
    have hrest : rest.count semicolon ≤ tail.count semicolon := hsuffix.sublist.count_le _
    have hbound : separators (calls ++ List.replicate k .lineSeparator ++ new) + rest.count semicolon < 2147483648 := by
      rw [separators_append, separators_append]
      omega
    rw [hmapping]
    rcases houtcome with ⟨hmax, hrefused⟩ | ⟨hlt, ⟨_, s₂⟩, hok, rfl, h₂⟩
    · obtain ⟨s₂, h₂⟩ := htraced.agree
      rcases ih h₂ hbound with ⟨herror, _⟩ | ⟨r', more, hok, hmore, htraced', _⟩
      · exact .inl ⟨herror, hrefused.bind _⟩
      · refine .inr ⟨r', List.replicate k .lineSeparator ++ (new ++ more), hok, ?_, ?_, ?_⟩
        · rw [separators_append, separators_append]
          omega
        · simpa only [List.append_assoc] using htraced'
        · apply Outcome.lines
          obtain ⟨m, hm, heq⟩ := hmax
          exact .inl ⟨⟨m, List.mem_append_left _ hm, heq⟩, hrefused.bind _⟩
    · rw [hok]
      rcases ih h₂ hbound with hrefused | ⟨r', more, hok, hmore, htraced', houtcome⟩
      · exact .inl hrefused
      · refine .inr ⟨r', List.replicate k .lineSeparator ++ (new ++ more), hok, ?_, ?_, ?_⟩
        · rw [separators_append, separators_append]
          omega
        · simpa only [List.append_assoc] using htraced'
        · apply Outcome.lines
          rcases houtcome with ⟨⟨m, hm, heq⟩, hrefused⟩ | ⟨hlt', s', hok', hagree⟩
          · exact .inl ⟨⟨m, List.mem_append_right _ hm, heq⟩, hrefused⟩
          · refine .inr ⟨fun m hm => ?_, s', hok', ?_⟩
            · rcases List.mem_append.1 hm with hm | hm
              · exact hlt m hm
              · exact hlt' m hm
            · simpa only [List.append_assoc] using hagree

end Lines

end Funbun.SourceMap.Internal
