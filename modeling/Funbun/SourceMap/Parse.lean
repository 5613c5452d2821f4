import Mathlib.Data.List.Sort
import Funbun.SourceMap.Chunk

/-! Reading a mappings text.

`parse_render`: the text of tokens is read as their mappings, whatever the numbers in it. -/
namespace Funbun.SourceMap

structure Mapping where
  generated : LineColumnOffset
  original : LineColumnOffset
  sourceIndex : Int
  nameIndex : Int
  deriving DecidableEq

/-- A list that has no names drops those of its mappings. -/
structure MappingList where
  withNames : Bool
  mappings : List Mapping
  deriving DecidableEq

def MappingList.append (list : MappingList) (m : Mapping) : MappingList :=
  {list with mappings := list.mappings ++ [if list.withNames then m else {m with nameIndex := -1}]}

/-- By place in the generated code. Mappings in one place stay in order. -/
def MappingList.sort (list : MappingList) : MappingList :=
  { list with
    mappings := list.mappings.mergeSort fun a b =>
      if a.generated.lines ≠ b.generated.lines then a.generated.lines < b.generated.lines
      else a.generated.columns ≤ b.generated.columns }

structure ParseResultFail where
  msg : String
  err : String
  value : Int
  loc : Int
  deriving DecidableEq

structure ParseOptions where
  allowNames : Bool
  sort : Bool

structure Parser where
  generated : LineColumnOffset
  original : LineColumnOffset
  sourceIndex : Int
  nameIndex : Int
  needsSort : Bool
  mapping : MappingList

def Parser.init : Parser := ⟨⟨0, 0⟩, ⟨0, 0⟩, 0, 0, false, ⟨false, []⟩⟩

/-- `SEMICOLON_RUN`, half as long as a word of the machine -/
def semicolonRun : List UInt8 := [semicolon, semicolon, semicolon, semicolon]

def skipSemicolonRuns : List UInt8 → Int → List UInt8 × Int
  | a :: b :: c :: d :: remain, lines =>
    if [a, b, c, d] = semicolonRun then skipSemicolonRuns remain (i32 (lines + 4))
    else (a :: b :: c :: d :: remain, lines)
  | remain, lines => (remain, lines)

def skipSemicolons : List UInt8 → Int → List UInt8 × Int
  | [], lines => ([], lines)
  | byte :: remain, lines =>
    if byte = semicolon then skipSemicolons remain (i32 (lines + 1)) else (byte :: remain, lines)

/-- The line breaks in front of a mapping -/
def skipLines (remain : List UInt8) (s : Parser) : List UInt8 × Parser :=
  if remain.head? = some semicolon then
    let (remain, lines) := skipSemicolonRuns remain s.generated.lines
    let (remain, lines) := skipSemicolons remain lines
    (remain, {s with generated := ⟨lines, 0⟩})
  else (remain, s)

/-- A number that is not there and one that leads to a bad value are errors at the place where it is read. -/
def readField (loc : Int) (remain : List UInt8) (value : Int) (missing : ParseResultFail) (msg err : String)
    (isInvalid : Int → Bool) : Except ParseResultFail (Int × Int × List UInt8) :=
  let delta := Vlq.decode remain 0
  if delta.start = 0 then .error {missing with loc}
  else
    let value := i32 (value + delta.value)
    if isInvalid value then .error ⟨msg, err, value, loc⟩ else .ok (delta.value, value, remain.drop delta.start)

section Options
variable (options : ParseOptions) (sourcesCount : Int) (bytes : List UInt8)

/-- Where in the text the rest starts -/
def location (remain : List UInt8) : Int := min (bytes.length - remain.length : Nat) 2147483647

def readGenerated (remain : List UInt8) (s : Parser) : Except ParseResultFail (List UInt8 × Parser) := do
  let (delta, columns, remain) ← readField (location bytes remain) remain s.generated.columns
    ⟨"Missing generated column value", "MissingGeneratedColumnValue", s.generated.columns, -1⟩
    "Invalid generated column value" "InvalidGeneratedColumnValue" (· < 0)
  return (remain, {s with needsSort := s.needsSort || delta < 0, generated := {s.generated with columns}})

def readOriginal (remain : List UInt8) (s : Parser) : Except ParseResultFail (List UInt8 × Parser) := do
  let (_, sourceIndex, remain) ← readField (location bytes remain) remain s.sourceIndex
    ⟨"Invalid source index delta", "InvalidSourceIndexDelta", 0, -1⟩
    "Invalid source index value" "InvalidSourceIndexValue" fun value => value < 0 || sourcesCount ≤ value
  let (_, lines, remain) ← readField (location bytes remain) remain s.original.lines
    ⟨"Missing original line", "MissingOriginalLine", 0, -1⟩
    "Invalid original line value" "InvalidOriginalLineValue" (· < 0)
  let (_, columns, remain) ← readField (location bytes remain) remain s.original.columns
    ⟨"Missing original column value", "MissingOriginalColumnValue", s.original.columns, -1⟩
    "Invalid original column value" "InvalidOriginalColumnValue" (· < 0)
  return (remain, {s with sourceIndex, original := ⟨lines, columns⟩})

/-- The fifth number of a mapping, if there is one, and the comma behind it -/
def readName (remain : List UInt8) (s : Parser) : Except ParseResultFail (List UInt8 × Parser) :=
  match remain with
  | [] => .ok ([], s)
  | c :: rest =>
    if c = comma then .ok (rest, s)
    else if c = semicolon then .ok (c :: rest, s)
    else
      let delta := Vlq.decode (c :: rest) 0
      if delta.start = 0 then
        .error ⟨"Invalid name index delta", "InvalidNameIndexDelta", c.toNat, location bytes (c :: rest)⟩
      else
        let s :=
          if options.allowNames then
            {s with nameIndex := i32 (s.nameIndex + delta.value), mapping := {s.mapping with withNames := true}}
          else s
        let remain := (c :: rest).drop delta.start
        .ok (if remain.head? = some comma then remain.tail else remain, s)

def Parser.appendMapping (s : Parser) : Parser :=
  {s with mapping := s.mapping.append ⟨s.generated, s.original, s.sourceIndex, s.nameIndex⟩}

/-- One mapping. One that has a generated column only is left out. -/
def readMapping (remain : List UInt8) (s : Parser) : Except ParseResultFail (List UInt8 × Parser) := do
  let (remain, s) ← readGenerated bytes remain s
  match remain with
  | [] => return ([], s)
  | c :: rest =>
    if c = comma then return (rest, s)
    else if c = semicolon then return (c :: rest, s)
    else
      let (remain, s) ← readOriginal sourcesCount bytes (c :: rest) s
      let (remain, s) ← readName options bytes remain s
      return (remain, s.appendMapping)

/-- A turn takes at least one byte. -/
def parseMappings : Nat → List UInt8 → Parser → Except ParseResultFail Parser
  | 0, _, s => .ok s
  | n + 1, remain, s =>
    let (remain, s) := skipLines remain s
    if remain = [] then .ok s
    else do
      let (remain, s) ← readMapping options sourcesCount bytes remain s
      parseMappings n remain s

def parse : Except ParseResultFail MappingList := do
  let s ← parseMappings options sourcesCount bytes (bytes.length + 1) bytes Parser.init
  return if s.needsSort && options.sort then s.mapping.sort else s.mapping

end Options

/-! ### Line breaks -/

theorem i32_add (a b : Int) : i32 (i32 a + b) = i32 (a + b) := Int.bmod_add_bmod ..

theorem skipSemicolons_runs (remain : List UInt8) (lines : Int) :
    skipSemicolons (skipSemicolonRuns remain lines).1 (skipSemicolonRuns remain lines).2 =
      skipSemicolons remain lines := by
  fun_induction skipSemicolonRuns remain lines with
  | case1 a b c d remain lines h ih =>
    obtain ⟨rfl, rfl, rfl, rfl⟩ : a = semicolon ∧ b = semicolon ∧ c = semicolon ∧ d = semicolon := by
      simpa [semicolonRun] using h
    rw [ih]
    simp [skipSemicolons, i32_add, add_assoc]
  | case2 => rfl
  | case3 => rfl

def Parser.newline (s : Parser) : Parser := {s with generated := ⟨i32 (s.generated.lines + 1), 0⟩}

theorem skipLines_of_semicolon (remain : List UInt8) (s : Parser) :
    skipLines (semicolon :: remain) s =
      ((skipSemicolons remain s.newline.generated.lines).1,
        {s with generated := ⟨(skipSemicolons remain s.newline.generated.lines).2, 0⟩}) := by
  have h := skipSemicolons_runs (semicolon :: remain) s.generated.lines
  rw [skipSemicolons, if_pos rfl] at h
  simp only [skipLines, List.head?_cons, if_true, h]
  rfl

theorem skipSemicolons_of_ne {remain : List UInt8} (h : remain.head? ≠ some semicolon) (lines : Int) :
    skipSemicolons remain lines = (remain, lines) := by
  cases remain with
  | nil => rfl
  | cons byte remain =>
    have hbyte : byte ≠ semicolon := fun heq => h (congrArg some heq)
    rw [skipSemicolons, if_neg hbyte]

theorem skipLines_of_ne {remain : List UInt8} (h : remain.head? ≠ some semicolon) (s : Parser) :
    skipLines remain s = (remain, s) := if_neg h

/-- The line breaks may be skipped one by one. -/
theorem skipLines_eq (remain : List UInt8) (s : Parser) :
    skipLines (semicolon :: remain) s = skipLines remain s.newline := by
  rw [skipLines_of_semicolon]
  by_cases h : remain.head? = some semicolon
  · obtain ⟨rest, rfl⟩ : ∃ rest, remain = semicolon :: rest := by
      cases remain with
      | nil => cases h
      | cons byte rest => exact ⟨rest, by rw [Option.some.inj h]⟩
    rw [skipLines_of_semicolon, skipSemicolons, if_pos rfl]
    rfl
  · rw [skipLines_of_ne h, skipSemicolons_of_ne h]
    rfl

/-! ### Mappings -/

theorem readField_encode {value delta : Int} (hdelta : Vlq.InRange delta) (hrange : Int32Range (value + delta))
    (loc : Int) (missing : ParseResultFail) (msg err : String) {isInvalid : Int → Bool}
    (hvalid : isInvalid (value + delta) = false) (remain : List UInt8) :
    readField loc (Vlq.encode delta ++ remain) value missing msg err isInvalid =
      .ok (delta, value + delta, remain) := by
  have hdecode := Vlq.decode_encode hdelta [] remain
  rw [List.nil_append, List.length_nil, zero_add] at hdecode
  have hlength : (Vlq.encode delta).length ≠ 0 := by
    simpa using (Vlq.encode_shape hdelta).1
  unfold readField
  simp only [hdecode, if_neg hlength, i32_of_range hrange, hvalid, List.drop_left]
  rfl

/-- What the parser knows is a state. -/
structure AtState (s : Parser) (state : SourceMapState) : Prop where
  generated : s.generated = state.generated
  original : s.original = ⟨state.originalLine, state.originalColumn⟩
  sourceIndex : s.sourceIndex = state.sourceIndex
  withoutNames : s.mapping.withNames = false

def SourceMapState.toMapping (s : SourceMapState) : Mapping :=
  ⟨s.generated, ⟨s.originalLine, s.originalColumn⟩, s.sourceIndex, -1⟩

theorem AtState.newline {s : Parser} {state : SourceMapState} (h : AtState s state) (hnext : state.newline.InBounds) :
    AtState s.newline state.newline where
  generated := by
    have := hnext.generatedLine
    simp only [SourceMapState.newline] at this
    have heq : i32 (state.generatedLine + 1) = state.generatedLine + 1 := by
      apply i32_of_range
      unfold Int32Range
      omega
    show (⟨i32 (s.generated.lines + 1), 0⟩ : LineColumnOffset) = ⟨state.generatedLine + 1, 0⟩
    rw [h.generated]
    show (⟨i32 (state.generatedLine + 1), 0⟩ : LineColumnOffset) = _
    rw [heq]
  original := h.original
  sourceIndex := h.sourceIndex
  withoutNames := h.withoutNames

section Options
variable {options : ParseOptions} {sourcesCount : Int} {bytes : List UInt8}

variable {s : Parser} {state : SourceMapState} {d : Segment}

theorem readGenerated_encode (h : AtState s state) (hd : d.InRange) (hnext : (state.move d).InBounds) (remain : List UInt8) :
    readGenerated bytes (Vlq.encode d.generatedColumn ++ remain) s =
      .ok (remain,
        { s with
          needsSort := s.needsSort || d.generatedColumn < 0
          generated := (state.move d).generated }) := by
  have hcolumn := hnext.generatedColumn
  simp only [SourceMapState.move] at hcolumn
  have hcolumns : s.generated.columns = state.generatedColumn := congrArg LineColumnOffset.columns h.generated
  have hlines : s.generated.lines = state.generatedLine := congrArg LineColumnOffset.lines h.generated
  unfold readGenerated
  rw [hcolumns, readField_encode hd.1 (by unfold Int32Range; omega) _ _ _ _ (by simpa using hcolumn.1)]
  show Except.ok (_, {s with needsSort := _, generated := ⟨s.generated.lines, _⟩}) = _
  rw [hlines]
  rfl

variable (bytes) in
theorem readOriginal_encode (hsource : s.sourceIndex = state.sourceIndex)
    (horiginal : s.original = ⟨state.originalLine, state.originalColumn⟩) (hd : d.InRange)
    (hnext : (state.move d).InBounds) (hcount : (state.move d).sourceIndex < sourcesCount) (remain : List UInt8) :
    readOriginal sourcesCount bytes
        (Vlq.encode d.sourceIndex ++ (Vlq.encode d.originalLine ++ (Vlq.encode d.originalColumn ++ remain))) s =
      .ok (remain,
        { s with
          sourceIndex := (state.move d).sourceIndex
          original := ⟨(state.move d).originalLine, (state.move d).originalColumn⟩ }) := by
  have hindex := hnext.sourceIndex
  have hline := hnext.originalLine
  have hcolumn := hnext.originalColumn
  simp only [SourceMapState.move] at hindex hline hcolumn hcount
  unfold readOriginal
  rw [hsource, horiginal,
    readField_encode hd.2.1 (by unfold Int32Range; omega) _ _ _ _ (by simpa using ⟨hindex.1, hcount⟩)]
  show (readField _ _ state.originalLine _ _ _ _ >>= _) = _
  rw [readField_encode hd.2.2.1 (by unfold Int32Range; omega) _ _ _ _ (by simpa using hline.1)]
  show (readField _ _ state.originalColumn _ _ _ _ >>= _) = _
  rw [readField_encode hd.2.2.2 (by unfold Int32Range; omega) _ _ _ _ (by simpa using hcolumn.1)]
  rfl

/-- Behind a segment is the end, a line break or the comma of the next one. -/
theorem readName_render (tokens : List Token) (s : Parser) :
    readName options bytes (render true tokens) s = .ok (render false tokens, s) := by
  cases tokens with
  | nil => rfl
  | cons t tokens => cases t <;> rfl

/-- The parser at the next state, with its mapping -/
def Parser.move (s : Parser) (d : Segment) (next : SourceMapState) : Parser :=
  Parser.appendMapping
    { s with
      needsSort := s.needsSort || d.generatedColumn < 0
      generated := next.generated
      original := ⟨next.originalLine, next.originalColumn⟩
      sourceIndex := next.sourceIndex }

theorem AtState.move (h : AtState s state) (d : Segment) (next : SourceMapState) :
    AtState (s.move d next) next :=
  ⟨rfl, rfl, rfl, h.withoutNames⟩

theorem AtState.mappings_move (h : AtState s state) (d : Segment)
    (next : SourceMapState) : (s.move d next).mapping.mappings = s.mapping.mappings ++ [next.toMapping] := by
  show s.mapping.mappings ++ [if s.mapping.withNames then _ else _] = _
  rw [h.withoutNames]
  rfl

variable (options bytes) in
/-- A segment is read as the mapping it leads to, and the comma behind it is gone. -/
theorem readMapping_segment (tokens : List Token) (h : AtState s state) (hd : d.InRange) (hnext : (state.move d).InBounds)
    (hcount : (state.move d).sourceIndex < sourcesCount) :
    readMapping options sourcesCount bytes (d.bytes ++ render true tokens) s =
      .ok (render false tokens, s.move d (state.move d)) := by
  obtain ⟨c, digits, hsource⟩ := List.exists_cons_of_ne_nil (Vlq.encode_shape hd.2.1).1
  have hc : c ∈ Vlq.base64 := (Vlq.encode_shape hd.2.1).2 c (by rw [hsource]; exact List.mem_cons_self)
  have hcomma : c ≠ comma := fun heq => absurd (heq ▸ hc) (by decide)
  have hsemicolon : c ≠ semicolon := fun heq => absurd (heq ▸ hc) (by decide)
  have horiginal := readOriginal_encode bytes
    (s := {s with needsSort := s.needsSort || d.generatedColumn < 0, generated := (state.move d).generated})
    h.sourceIndex h.original hd hnext hcount (render true tokens)
  unfold readMapping Segment.bytes
  rw [List.append_assoc, List.append_assoc, List.append_assoc, readGenerated_encode h hd hnext]
  rw [hsource] at horiginal ⊢
  show (if c = comma then _ else if c = semicolon then _ else _) = _
  rw [if_neg hcomma, if_neg hsemicolon]
  show (readOriginal sourcesCount bytes (c :: digits ++ _) _ >>= _) = _
  rw [horiginal]
  show (readName options bytes (render true tokens) _ >>= _) = _
  rw [readName_render]
  rfl

theorem Segment.head_bytes (hd : d.InRange) (rest : List UInt8) :
    (d.bytes ++ rest).head? ≠ some semicolon ∧ d.bytes ++ rest ≠ [] := by
  obtain ⟨hne, hdigits⟩ := d.bytes_shape hd
  obtain ⟨c, digits, hbytes⟩ := List.exists_cons_of_ne_nil hne
  have hc : c ∈ Vlq.base64 := hdigits c (by rw [hbytes]; exact List.mem_cons_self)
  rw [hbytes]
  refine ⟨fun heq => ?_, by simp⟩
  have hsemicolon : c = semicolon := Option.some.inj heq
  exact absurd (hsemicolon ▸ hc) (by decide)

/-! ### The whole text -/

variable (options bytes) in
/-- Induction on the tokens. The fuel is enough for a turn at every segment and one at the end. -/
theorem parseMappings_render {tokens : List Token} (h : AtState s state)
    (hstate : state.InBounds) (hwithin : state.Within tokens)
    (hcount : ∀ p ∈ state.positions tokens, p.sourceIndex < sourcesCount) {fuel : Nat} (hfuel : tokens.length < fuel) :
    ∃ s', parseMappings options sourcesCount bytes fuel (render false tokens) s = .ok s' ∧
      s'.mapping = ⟨false, s.mapping.mappings ++ (state.positions tokens).map SourceMapState.toMapping⟩ := by
  induction tokens generalizing s state fuel with
  | nil =>
    obtain ⟨fuel, rfl⟩ := Nat.exists_eq_succ_of_ne_zero (Nat.ne_zero_of_lt hfuel)
    refine ⟨s, rfl, ?_⟩
    show s.mapping = ⟨false, s.mapping.mappings ++ []⟩
    rw [List.append_nil, ← h.withoutNames]
  | cons t tokens ih =>
    obtain ⟨fuel, rfl⟩ := Nat.exists_eq_succ_of_ne_zero (Nat.ne_zero_of_lt hfuel)
    rw [List.length_cons] at hfuel
    cases t with
    | newline =>
      obtain ⟨s', hparse, hmappings⟩ := ih (h.newline hwithin.1) hwithin.1 hwithin.2 hcount (Nat.lt_of_succ_lt hfuel)
      refine ⟨s', ?_, hmappings⟩
      rw [← hparse]
      show parseMappings options sourcesCount bytes (fuel + 1) (semicolon :: render false tokens) s = _
      simp only [parseMappings, skipLines_eq]
    | segment d =>
      have hd : d.InRange := Segment.inRange_of_move hstate hwithin.1
      have hread := readMapping_segment options bytes tokens h hd hwithin.1
        (hcount _ List.mem_cons_self)
      obtain ⟨s', hparse, hmappings⟩ := ih (h.move d _) hwithin.1 hwithin.2
        (fun p hp => hcount p (List.mem_cons_of_mem _ hp)) (Nat.lt_of_succ_lt_succ hfuel)
      refine ⟨s', ?_, ?_⟩
      · rw [← hparse]
        obtain ⟨hhead, hne⟩ := d.head_bytes hd (render true tokens)
        show parseMappings options sourcesCount bytes (fuel + 1) (d.bytes ++ render true tokens) s = _
        simp only [parseMappings, skipLines_of_ne hhead, if_neg hne, hread]
        rfl
      · rw [hmappings, h.mappings_move]
        simp [SourceMapState.positions]

end Options

theorem length_le_render {state : SourceMapState} {tokens : List Token} (hstate : state.InBounds)
    (hwithin : state.Within tokens) (after : Bool) : tokens.length ≤ (render after tokens).length := by
  induction tokens generalizing state after with
  | nil => exact le_rfl
  | cons t tokens ih =>
    cases t with
    | newline => exact Nat.succ_le_succ (ih hwithin.1 hwithin.2 false)
    | segment d =>
      have hne := List.length_pos_of_ne_nil (d.bytes_shape (Segment.inRange_of_move hstate hwithin.1)).1
      have := ih hwithin.1 hwithin.2 true
      simp only [render, List.length_append, List.length_cons]
      omega

/-- A text is read as the mappings of its tokens. -/
theorem parse_render {tokens : List Token} (hwithin : SourceMapState.zero.Within tokens) {sourcesCount : Int}
    (hcount : ∀ p ∈ SourceMapState.zero.positions tokens, p.sourceIndex < sourcesCount) (allowNames : Bool) :
    parse ⟨allowNames, false⟩ sourcesCount (render false tokens) =
      .ok ⟨false, (SourceMapState.zero.positions tokens).map SourceMapState.toMapping⟩ := by
  have hat : AtState Parser.init SourceMapState.zero := ⟨rfl, rfl, rfl, rfl⟩
  have hlength := length_le_render SourceMapState.zero_inBounds hwithin false
  obtain ⟨s', hparse, hmappings⟩ := parseMappings_render ⟨allowNames, false⟩ (render false tokens)
    hat SourceMapState.zero_inBounds hwithin hcount (Nat.lt_succ_of_le hlength)
  unfold parse
  rw [hparse]
  show Except.ok (if s'.needsSort && false then _ else s'.mapping) = _
  rw [Bool.and_false, hmappings]
  rfl

/-- What is printed is read as the mappings that the printer came to. -/
theorem parse_steps (cover : Bool) {steps : List Step} (hwidth : stepsWidth steps < 2147483648)
    (hsteps : ∀ st ∈ steps, st.InRange) {sourcesCount : Int} (hcount : 0 < sourcesCount) (allowNames : Bool) :
    parse ⟨allowNames, false⟩ sourcesCount (steps.foldl Builder.step (Builder.init cover)).generateChunk.buffer =
      .ok ⟨false, (told cover false false .zero 0 steps).map SourceMapState.toMapping⟩ := by
  have hwidth' : 0 + stepsWidth steps < 2147483648 := by omega
  obtain ⟨tokens, h, htold⟩ := (printing_init cover).steps hwidth' hsteps
  have htold : SourceMapState.zero.positions tokens = told cover false false .zero 0 steps := htold
  have hsource : ∀ p ∈ SourceMapState.zero.positions tokens, p.sourceIndex < sourcesCount := fun p hp => by
    rw [(h.positions p hp).2]
    exact hcount
  rw [← htold, ← parse_render h.within hsource allowNames, ← h.data]
  rfl

end Funbun.SourceMap
