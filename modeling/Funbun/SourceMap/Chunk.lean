import Funbun.SourceMap.Mappings

/-! The chunk printer.

While the code is printed the builder follows the line and the column, and every mapping is written down as
its difference from the last one. `printed` says what is in the buffer at the end. -/
namespace Funbun.SourceMap

def semicolon : UInt8 := ';'.toUInt8
def comma : UInt8 := ','.toUInt8
def quote : UInt8 := '"'.toUInt8

/-- The last byte of a buffer, 0 when it is empty -/
def lastByte (bytes : List UInt8) : UInt8 := bytes.getLast?.getD 0

def needsComma (lastByte : UInt8) : Bool := lastByte != 0 && lastByte != semicolon && lastByte != quote

/-- `append_mapping_to_buffer` -/
def appendMappingToBuffer (buffer : List UInt8) (lastByte : UInt8) (prevState currentState : SourceMapState) :
    List UInt8 :=
  buffer ++ (if needsComma lastByte then [comma] else []) ++
    Vlq.encode (saturatingSub currentState.generatedColumn prevState.generatedColumn) ++
    Vlq.encode (saturatingSub currentState.sourceIndex prevState.sourceIndex) ++
    Vlq.encode (saturatingSub currentState.originalLine prevState.originalLine) ++
    Vlq.encode (saturatingSub currentState.originalColumn prevState.originalColumn)

structure Chunk where
  buffer : List UInt8
  mappingsCount : Nat
  endState : SourceMapState
  finalGeneratedColumn : Int
  shouldIgnore : Bool
  deriving DecidableEq

/-- `NewBuilder` over `VLQSourceMap` -/
structure Builder where
  data : List UInt8
  count : Nat
  prevState : SourceMapState
  generatedColumn : Int
  hasPrevState : Bool
  lineStartsWithMapping : Bool
  coverLinesWithoutMappings : Bool

/-- What the printer tells the builder: text within a line, by its length in UTF-16 units, a line break,
and a place in the source for which a mapping is added, by its line and column. -/
inductive Step where
  | text (columns : Nat)
  | newline
  | mapping (originalLine originalColumn : Int)
  deriving DecidableEq

namespace Builder

def init (coverLinesWithoutMappings : Bool) : Builder :=
  ⟨[], 0, .zero, 0, false, false, coverLinesWithoutMappings⟩

/-- `append_mapping_without_remapping` -/
def appendMapping (b : Builder) (currentState : SourceMapState) : Builder :=
  { b with
    data := appendMappingToBuffer b.data (lastByte b.data) b.prevState currentState
    count := b.count + 1
    prevState := currentState
    hasPrevState := true }

/-- The last mapping again, at the start of the line that has none there -/
def coverLine (b : Builder) : Builder := b.appendMapping {b.prevState with generatedColumn := 0}

def needsMapping (b : Builder) : Bool := b.coverLinesWithoutMappings && !b.lineStartsWithMapping && b.hasPrevState

/-- The line break of `update_generated_line_and_column` -/
def appendLineSeparator (b : Builder) : Builder :=
  let b := if b.needsMapping then b.coverLine else b
  { b with
    prevState := {b.prevState with generatedLine := i32 (b.prevState.generatedLine + 1), generatedColumn := 0}
    generatedColumn := 0
    data := b.data ++ [semicolon]
    lineStartsWithMapping := false }

/-- `add_source_mapping`, once the line and the column of the place are known -/
def addSourceMapping (b : Builder) (originalLine originalColumn : Int) : Builder :=
  let b := if b.needsMapping && decide (0 < b.generatedColumn) then b.coverLine else b
  let b := b.appendMapping
    { b.prevState with
      generatedColumn := max b.generatedColumn 0
      originalLine := max originalLine 0
      originalColumn := max originalColumn 0 }
  {b with lineStartsWithMapping := true}

def step (b : Builder) : Step → Builder
  | .text columns => {b with generatedColumn := i32 (b.generatedColumn + columns)}
  | .newline => b.appendLineSeparator
  | .mapping originalLine originalColumn => b.addSourceMapping originalLine originalColumn

def generateChunk (b : Builder) : Chunk :=
  ⟨b.data, b.count, b.prevState, b.generatedColumn, b.count == 0⟩

end Builder

/-! ### Text -/

def Segment.bytes (d : Segment) : List UInt8 :=
  Vlq.encode d.generatedColumn ++ Vlq.encode d.sourceIndex ++ Vlq.encode d.originalLine ++
    Vlq.encode d.originalColumn

/-- The text of the tokens. A segment right after another one is behind a comma. -/
def render (afterSegment : Bool) : List Token → List UInt8
  | [] => []
  | .newline :: tokens => semicolon :: render false tokens
  | .segment d :: tokens => (if afterSegment then [comma] else []) ++ d.bytes ++ render true tokens

def endsInSegment (afterSegment : Bool) : List Token → Bool
  | [] => afterSegment
  | .newline :: tokens => endsInSegment false tokens
  | .segment _ :: tokens => endsInSegment true tokens

theorem render_append (after : Bool) (a b : List Token) :
    render after (a ++ b) = render after a ++ render (endsInSegment after a) b := by
  induction a generalizing after with
  | nil => rfl
  | cons t tokens ih =>
    cases t with
    | newline => exact congrArg (semicolon :: ·) (ih false)
    | segment d =>
      show _ ++ render true (tokens ++ b) = _ ++ render true tokens ++ _
      rw [ih true]
      exact (List.append_assoc _ _ _).symm

theorem endsInSegment_append (after : Bool) (a b : List Token) :
    endsInSegment after (a ++ b) = endsInSegment (endsInSegment after a) b := by
  induction a generalizing after with
  | nil => rfl
  | cons t tokens ih => cases t <;> exact ih _

theorem lastByte_append {a b : List UInt8} (h : b ≠ []) : lastByte (a ++ b) = lastByte b := by
  unfold lastByte
  rw [List.getLast?_append_of_ne_nil _ h]

/-- No digit is a separator. -/
theorem needsComma_digit : ∀ byte ∈ Vlq.base64, needsComma byte = true := by decide +kernel

theorem Segment.bytes_shape {d : Segment} (h : d.InRange) : d.bytes ≠ [] ∧ ∀ byte ∈ d.bytes, byte ∈ Vlq.base64 := by
  obtain ⟨hcolumn, hsource, hline, horiginal⟩ := h
  have hcolumn := Vlq.encode_shape hcolumn
  have hsource := Vlq.encode_shape hsource
  have hline := Vlq.encode_shape hline
  have horiginal := Vlq.encode_shape horiginal
  constructor
  · simp [bytes, hcolumn.1]
  · intro byte hbyte
    simp only [bytes, List.mem_append] at hbyte
    rcases hbyte with ((h | h) | h) | h
    · exact hcolumn.2 byte h
    · exact hsource.2 byte h
    · exact hline.2 byte h
    · exact horiginal.2 byte h

theorem Segment.needsComma_bytes {d : Segment} (h : d.InRange) (before : List UInt8) :
    needsComma (lastByte (before ++ d.bytes)) = true := by
  obtain ⟨hne, hdigits⟩ := d.bytes_shape h
  rw [lastByte_append hne]
  apply needsComma_digit
  unfold lastByte
  rw [List.getLast?_eq_some_getLast hne]
  exact hdigits _ (List.getLast_mem hne)

/-- Whether a comma is due can be seen on the last byte. -/
theorem needsComma_lastByte {s : SourceMapState} {tokens : List Token} (hs : s.InBounds) (hwithin : s.Within tokens) :
    ∀ (before : List UInt8) (after : Bool), needsComma (lastByte before) = after →
      needsComma (lastByte (before ++ render after tokens)) = endsInSegment after tokens := by
  induction tokens generalizing s with
  | nil =>
    intro before after h
    rw [render, List.append_nil]
    exact h
  | cons t tokens ih =>
    intro before after h
    cases t with
    | newline =>
      have hline : needsComma (lastByte (before ++ [semicolon])) = false := by
        rw [lastByte_append (by simp)]
        rfl
      show needsComma (lastByte (before ++ ([semicolon] ++ render false tokens))) = _
      rw [← List.append_assoc]
      exact ih hwithin.1 hwithin.2 _ false hline
    | segment d =>
      have hd : d.InRange := Segment.inRange_of_move hs hwithin.1
      show needsComma (lastByte (before ++ (_ ++ d.bytes ++ render true tokens))) = _
      rw [← List.append_assoc, ← List.append_assoc]
      exact ih hwithin.1 hwithin.2 _ true (d.needsComma_bytes hd _)

theorem appendMappingToBuffer_eq (buffer : List UInt8) (last : UInt8) {prev current : SourceMapState}
    (hprev : prev.InBounds) (hcurrent : current.InBounds) :
    appendMappingToBuffer buffer last prev current =
      buffer ++ (if needsComma last then [comma] else []) ++ (current.sub prev).bytes := by
  have hcolumn := hprev.generatedColumn
  have hsource := hprev.sourceIndex
  have hline := hprev.originalLine
  have horiginal := hprev.originalColumn
  have hcolumn' := hcurrent.generatedColumn
  have hsource' := hcurrent.sourceIndex
  have hline' := hcurrent.originalLine
  have horiginal' := hcurrent.originalColumn
  unfold appendMappingToBuffer
  rw [saturatingSub_of_range (by unfold Int32Range; omega), saturatingSub_of_range (by unfold Int32Range; omega),
    saturatingSub_of_range (by unfold Int32Range; omega), saturatingSub_of_range (by unfold Int32Range; omega)]
  simp only [Segment.bytes, SourceMapState.sub, List.append_assoc]

/-- Writing a mapping behind a text adds its segment. -/
theorem render_segment (before : List UInt8) (hbefore : needsComma (lastByte before) = false) {tokens : List Token}
    {start current : SourceMapState} (hstart : start.InBounds) (hwithin : start.Within tokens)
    (hprev : (start.run tokens).InBounds) (hcurrent : current.InBounds) :
    appendMappingToBuffer (before ++ render false tokens) (lastByte (before ++ render false tokens))
        (start.run tokens) current =
      before ++ render false (tokens ++ [.segment (current.sub (start.run tokens))]) := by
  rw [appendMappingToBuffer_eq _ _ hprev hcurrent, needsComma_lastByte hstart hwithin before false hbefore,
    render_append, List.append_assoc, List.append_assoc]
  simp [render]

/-! ### What the printer prints -/

/-- A piece of a source map: the text of its tokens from the zero state, with at least one mapping and no
source but its own, and the state and the column at its end. -/
structure Piece where
  chunk : Chunk
  tokens : List Token
  buffer : chunk.buffer = render false tokens
  endState : chunk.endState = SourceMapState.zero.run tokens
  mapping : SourceMapState.zero.positions tokens ≠ []
  source : ∀ p ∈ SourceMapState.zero.positions tokens, p.sourceIndex = 0
  positions : ∀ p ∈ SourceMapState.zero.positions tokens, p.InBounds
  generatedLine : chunk.endState.generatedLine < 2147483648
  finalGeneratedColumn : 0 ≤ chunk.finalGeneratedColumn ∧ chunk.finalGeneratedColumn < 2147483648

/-- How much of the code a step prints -/
def Step.width : Step → Nat
  | .text columns => columns
  | .newline => 1
  | .mapping _ _ => 0

def stepsWidth : List Step → Nat
  | [] => 0
  | st :: steps => st.width + stepsWidth steps

/-- The line and the column of a mapping are `i32`s. -/
def Step.InRange : Step → Prop
  | .mapping originalLine originalColumn => originalLine < 2147483648 ∧ originalColumn < 2147483648
  | _ => True

/-- The mappings that steps come to. The last one, at the line of the code, is there again at the start of a line that has none
there, if lines are to be covered. -/
def told (cover starts mapped : Bool) (last : SourceMapState) (column : Int) : List Step → List SourceMapState
  | [] => []
  | .text columns :: steps => told cover starts mapped last (column + columns) steps
  | .newline :: steps =>
    (if cover && !starts && mapped then [{last with generatedColumn := 0}] else []) ++
      told cover false mapped {last with generatedLine := last.generatedLine + 1, generatedColumn := 0} 0 steps
  | .mapping originalLine originalColumn :: steps =>
    let current := {last with
      generatedColumn := column, originalLine := max originalLine 0, originalColumn := max originalColumn 0}
    (if cover && !starts && mapped && decide (0 < column) then [{last with generatedColumn := 0}] else []) ++
      current :: told cover true true current column steps

def Builder.told (b : Builder) : List Step → List SourceMapState :=
  SourceMap.told b.coverLinesWithoutMappings b.lineStartsWithMapping b.hasPrevState b.prevState b.generatedColumn

/-- What holds of the builder when it has printed code of some width: its buffer is the text of tokens. -/
structure Printing (width : Nat) (b : Builder) (tokens : List Token) : Prop where
  data : b.data = render false tokens
  prevState : b.prevState = SourceMapState.zero.run tokens
  count : b.count = (SourceMapState.zero.positions tokens).length
  positions : ∀ p ∈ SourceMapState.zero.positions tokens, p.InBounds ∧ p.sourceIndex = 0
  prevInBounds : b.prevState.InBounds
  source : b.prevState.sourceIndex = 0
  lines : b.prevState.generatedLine ≤ width
  columns : 0 ≤ b.generatedColumn ∧ b.generatedColumn ≤ width

theorem SourceMapState.zero_inBounds : SourceMapState.zero.InBounds := by
  constructor <;> decide

theorem SourceMapState.positions_newline (s : SourceMapState) (tokens : List Token) :
    s.positions (tokens ++ [.newline]) = s.positions tokens := by
  simp [positions_append, positions]

namespace Printing
variable {width : Nat} {b : Builder} {tokens : List Token}

theorem within (h : Printing width b tokens) : SourceMapState.zero.Within tokens := by
  apply SourceMapState.within_of_positions SourceMapState.zero_inBounds
  · exact fun p hp => (h.positions p hp).1
  · rw [← h.prevState]
    exact h.prevInBounds.generatedLine.2

variable {current : SourceMapState}

theorem positions_mapping (h : Printing width b tokens) (hline : current.generatedLine = b.prevState.generatedLine) :
    SourceMapState.zero.positions (tokens ++ [.segment (current.sub b.prevState)]) =
      SourceMapState.zero.positions tokens ++ [current] := by
  rw [SourceMapState.positions_append, ← h.prevState, SourceMapState.positions, SourceMapState.move_sub hline]
  rfl

theorem appendMapping (h : Printing width b tokens) (hcurrent : current.InBounds)
    (hline : current.generatedLine = b.prevState.generatedLine) (hsource : current.sourceIndex = 0) :
    Printing width (b.appendMapping current) (tokens ++ [.segment (current.sub b.prevState)]) := by
  constructor
  · show appendMappingToBuffer b.data (lastByte b.data) b.prevState current = _
    rw [h.data, h.prevState]
    exact render_segment [] rfl SourceMapState.zero_inBounds h.within (h.prevState ▸ h.prevInBounds) hcurrent
  · rw [SourceMapState.run_append, ← h.prevState]
    exact (SourceMapState.move_sub hline).symm
  · rw [h.positions_mapping hline, List.length_append, ← h.count]
    rfl
  · rw [h.positions_mapping hline, List.forall_mem_append]
    exact ⟨h.positions, List.forall_mem_singleton.2 ⟨hcurrent, hsource⟩⟩
  · exact hcurrent
  · exact hsource
  · show current.generatedLine ≤ width
    rw [hline]
    exact h.lines
  · exact h.columns

theorem coverLine (h : Printing width b tokens) :
    ∃ tokens', Printing width b.coverLine tokens' ∧ SourceMapState.zero.positions tokens' =
      SourceMapState.zero.positions tokens ++ [{b.prevState with generatedColumn := 0}] := by
  have hcolumn : (0 : Int) ≤ 0 ∧ (0 : Int) < 2147483648 := by decide
  have hb := h.prevInBounds
  exact ⟨_, h.appendMapping ⟨hb.generatedLine, hcolumn, hb.sourceIndex, hb.originalLine, hb.originalColumn⟩ rfl h.source,
    h.positions_mapping rfl⟩

/-- A step keeps what is printed, and adds the mappings that it comes to. -/
def Steps (width : Nat) (tokens : List Token) (b b' : Builder) (st : Step) : Prop :=
  ∃ tokens', Printing width b' tokens' ∧ ∀ steps,
    SourceMapState.zero.positions tokens' ++ b'.told steps = SourceMapState.zero.positions tokens ++ b.told (st :: steps)

theorem text (h : Printing width b tokens) {columns : Nat} (hwidth : width + columns < 2147483648) :
    Steps (width + columns) tokens b (b.step (.text columns)) (.text columns) := by
  have hcolumns := h.columns
  have heq : i32 (b.generatedColumn + columns) = b.generatedColumn + columns := by
    apply i32_of_range
    unfold Int32Range
    omega
  rw [Builder.step, heq]
  refine ⟨tokens, {h with lines := le_trans h.lines (by omega), columns := ?_}, fun _ => rfl⟩
  show 0 ≤ b.generatedColumn + columns ∧ b.generatedColumn + columns ≤ _
  omega

/-- The line break itself, after the mapping that the line may get -/
theorem separator (h : Printing width b tokens) (hwidth : width + 1 < 2147483648) :
    i32 (b.prevState.generatedLine + 1) = b.prevState.generatedLine + 1 ∧ Printing (width + 1)
      { b with
        prevState := {b.prevState with generatedLine := i32 (b.prevState.generatedLine + 1), generatedColumn := 0}
        generatedColumn := 0
        data := b.data ++ [semicolon]
        lineStartsWithMapping := false }
      (tokens ++ [.newline]) := by
  have hlines := h.lines
  have hline := h.prevInBounds.generatedLine
  have heq : i32 (b.prevState.generatedLine + 1) = b.prevState.generatedLine + 1 := by
    apply i32_of_range
    unfold Int32Range
    omega
  have hb := h.prevInBounds
  have hcolumn : (0 : Int) ≤ 0 ∧ (0 : Int) < 2147483648 := by decide
  refine ⟨heq, ?_⟩
  rw [heq]
  constructor
  · show b.data ++ [semicolon] = _
    rw [render_append, ← h.data]
    rfl
  · rw [SourceMapState.run_append, ← h.prevState]
    rfl
  · rw [SourceMapState.positions_newline]
    exact h.count
  · rw [SourceMapState.positions_newline]
    exact h.positions
  · exact ⟨by show 0 ≤ b.prevState.generatedLine + 1 ∧ b.prevState.generatedLine + 1 < _; omega, hcolumn,
      hb.sourceIndex, hb.originalLine, hb.originalColumn⟩
  · exact h.source
  · show b.prevState.generatedLine + 1 ≤ _
    omega
  · show (0 : Int) ≤ 0 ∧ (0 : Int) ≤ _
    omega

theorem newline (h : Printing width b tokens) (hwidth : width + 1 < 2147483648) :
    Steps (width + 1) tokens b (b.step .newline) .newline := by
  show Steps (width + 1) tokens b b.appendLineSeparator .newline
  unfold Builder.appendLineSeparator
  have htold (steps) : b.told (.newline :: steps) = (if b.needsMapping then _ else []) ++ _ := rfl
  by_cases hcover : b.needsMapping = true
  · obtain ⟨tokens', h', hpositions⟩ := h.coverLine
    obtain ⟨hline, h''⟩ := h'.separator hwidth
    rw [if_pos hcover]
    refine ⟨_, h'', fun steps => ?_⟩
    have hmapped : b.hasPrevState = true := (Bool.and_eq_true _ _ ▸ hcover).2
    rw [SourceMapState.positions_newline, hpositions, List.append_assoc, htold, if_pos hcover, hmapped]
    simp only [Builder.told, hline]
    rfl
  · obtain ⟨hline, h'⟩ := h.separator hwidth
    rw [if_neg hcover]
    refine ⟨_, h', fun steps => ?_⟩
    rw [SourceMapState.positions_newline, htold, if_neg hcover, List.nil_append]
    simp only [Builder.told, hline]

/-- The mapping itself, after the one that the line may get -/
theorem mapping (h : Printing width b tokens) (hwidth : width < 2147483648) {originalLine originalColumn : Int}
    (hline : originalLine < 2147483648) (hcolumn : originalColumn < 2147483648) (hcurrent : current = { b.prevState with
      generatedColumn := max b.generatedColumn 0
      originalLine := max originalLine 0
      originalColumn := max originalColumn 0 }) :
    ∃ tokens', Printing width {b.appendMapping current with lineStartsWithMapping := true} tokens' ∧
      SourceMapState.zero.positions tokens' = SourceMapState.zero.positions tokens ++ [current] := by
  have hcolumns := h.columns
  have hb := h.prevInBounds
  have hbounds : current.InBounds := by
    rw [hcurrent]
    refine ⟨hb.generatedLine, ?_, hb.sourceIndex, ?_, ?_⟩
    all_goals
      show (0 : Int) ≤ max _ _ ∧ max _ _ < _
      omega
  have hsame : current.generatedLine = b.prevState.generatedLine := by rw [hcurrent]
  have hsource : current.sourceIndex = 0 := by rw [hcurrent, ← h.source]
  exact ⟨_, {h.appendMapping hbounds hsame hsource with}, h.positions_mapping hsame⟩

theorem addSourceMapping (h : Printing width b tokens) (hwidth : width < 2147483648) {originalLine originalColumn : Int}
    (hline : originalLine < 2147483648) (hcolumn : originalColumn < 2147483648) :
    Steps width tokens b (b.step (.mapping originalLine originalColumn)) (.mapping originalLine originalColumn) := by
  show Steps width tokens b (b.addSourceMapping originalLine originalColumn) _
  unfold Builder.addSourceMapping
  have htold (steps) : b.told (.mapping originalLine originalColumn :: steps) =
    (if b.needsMapping && decide (0 < b.generatedColumn) then _ else []) ++ _ := rfl
  by_cases hcover : (b.needsMapping && decide (0 < b.generatedColumn)) = true
  · obtain ⟨tokens', h', hpositions⟩ := h.coverLine
    obtain ⟨tokens'', h'', hpositions'⟩ := h'.mapping hwidth hline hcolumn rfl
    rw [if_pos hcover]
    refine ⟨_, h'', fun steps => ?_⟩
    rw [hpositions', hpositions, htold, if_pos hcover, List.append_assoc, List.append_assoc]
    simp only [max_eq_left h'.columns.1]
    rfl
  · obtain ⟨tokens', h', hpositions⟩ := h.mapping hwidth hline hcolumn rfl
    rw [if_neg hcover]
    refine ⟨_, h', fun steps => ?_⟩
    rw [hpositions, htold, if_neg hcover, List.append_assoc]
    simp only [max_eq_left h.columns.1]
    rfl

theorem step (h : Printing width b tokens) {st : Step} (hwidth : width + st.width < 2147483648) (hst : st.InRange) :
    Steps (width + st.width) tokens b (b.step st) st := by
  cases st with
  | text columns => exact h.text hwidth
  | newline => exact h.newline hwidth
  | mapping originalLine originalColumn => exact h.addSourceMapping hwidth hst.1 hst.2

theorem steps (h : Printing width b tokens) {steps : List Step} (hwidth : width + stepsWidth steps < 2147483648)
    (hsteps : ∀ st ∈ steps, st.InRange) :
    ∃ tokens', Printing (width + stepsWidth steps) (steps.foldl Builder.step b) tokens' ∧
      SourceMapState.zero.positions tokens' = SourceMapState.zero.positions tokens ++ b.told steps := by
  induction steps generalizing width b tokens with
  | nil => exact ⟨tokens, h, (List.append_nil _).symm⟩
  | cons st steps ih =>
    have hsum : width + stepsWidth (st :: steps) = width + st.width + stepsWidth steps := (add_assoc _ _ _).symm
    rw [hsum] at hwidth ⊢
    obtain ⟨tokens', h', htold⟩ := h.step (by omega) (hsteps st List.mem_cons_self)
    rw [← htold steps]
    exact ih h' hwidth fun st' hst' => hsteps st' (List.mem_cons_of_mem _ hst')

/-- The chunk is a piece as soon as it has a mapping. -/
def piece (h : Printing width b tokens) (hwidth : width < 2147483648) (hcount : b.generateChunk.shouldIgnore = false) :
    Piece where
  chunk := b.generateChunk
  tokens := tokens
  buffer := h.data
  endState := h.prevState
  mapping := by
    have : b.count ≠ 0 := by simpa [Builder.generateChunk] using hcount
    rw [h.count] at this
    exact fun heq => this (by rw [heq]; rfl)
  source p hp := (h.positions p hp).2
  positions p hp := (h.positions p hp).1
  generatedLine := h.prevInBounds.generatedLine.2
  finalGeneratedColumn := by
    have := h.columns
    show 0 ≤ b.generatedColumn ∧ b.generatedColumn < _
    omega

end Printing

theorem printing_init (cover : Bool) : Printing 0 (Builder.init cover) [] where
  data := rfl
  prevState := rfl
  count := rfl
  positions := by simp [SourceMapState.positions]
  prevInBounds := SourceMapState.zero_inBounds
  source := rfl
  lines := le_rfl
  columns := ⟨le_rfl, le_rfl⟩

/-- Code shorter than 2^31, mapped at least once, is printed as a piece. -/
theorem printed (cover : Bool) {steps : List Step} (hwidth : stepsWidth steps < 2147483648)
    (hsteps : ∀ st ∈ steps, st.InRange)
    (hmapping : (steps.foldl Builder.step (Builder.init cover)).generateChunk.shouldIgnore = false) :
    ∃ p : Piece, p.chunk = (steps.foldl Builder.step (Builder.init cover)).generateChunk := by
  have hwidth' : 0 + stepsWidth steps < 2147483648 := by omega
  obtain ⟨tokens, h, -⟩ := (printing_init cover).steps hwidth' hsteps
  exact ⟨h.piece hwidth' hmapping, rfl⟩

end Funbun.SourceMap
