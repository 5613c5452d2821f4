import Funbun.SourceMap.LineOffsetProofs

/-! What is printed is read back.

The builder is told of places in the source. It leaves out those that are empty, or the same as the last one, and all of
them if the source has no table; for the others the table has a line and a column. -/
namespace Funbun.SourceMap
open Library LineOffsetTable

/-- What the printer tells: text within a line, by its length in UTF-16 units, a line break, and a place in the source,
which is empty for code that is not from there -/
inductive Event where
  | text (columns : Nat)
  | newline
  | mapping (loc : Option Nat)

/-- `NewBuilder`, with the table of the source, be it given or generated when the first mapping comes -/
structure SourceBuilder where
  builder : Builder
  prevLoc : Option Nat
  lineOffsetTables : List LineOffsetTable

namespace SourceBuilder

def init (coverLinesWithoutMappings : Bool) (lineOffsetTables : List LineOffsetTable) : SourceBuilder :=
  ⟨.init coverLinesWithoutMappings, none, lineOffsetTables⟩

def addSourceMapping (b : SourceBuilder) (loc : Option Nat) : Checked SourceBuilder :=
  match loc with
  | none => .ok b
  | some start =>
    -- no mapping for the same place twice
    if b.prevLoc = some start then .ok b
    else
      let b := {b with prevLoc := some start}
      if b.lineOffsetTables = [] then .ok b
      else
        let originalLine := findLineWithHint (Generator.starts b.lineOffsetTables) start (u32 b.builder.prevState.originalLine)
        originalColumn b.lineOffsetTables start (max originalLine 0).toNat >>= fun originalColumn =>
        .ok {b with builder := b.builder.addSourceMapping originalLine originalColumn}

def step (b : SourceBuilder) : Event → Checked SourceBuilder
  | .text columns => .ok {b with builder := b.builder.step (.text columns)}
  | .newline => .ok {b with builder := b.builder.step .newline}
  | .mapping loc => b.addSourceMapping loc

end SourceBuilder

/-- What the table has for a place: the last line that starts up to it, and the column there. None without a table. -/
def located (tables : List LineOffsetTable) (start : Nat) : Checked (List Step) :=
  if tables = [] then .ok []
  else
    let originalLine := findLine (Generator.starts tables) start
    originalColumn tables start (max originalLine 0).toNat >>= fun originalColumn =>
    .ok [.mapping originalLine originalColumn]

/-- The mappings that are added, behind a place: not for one that is empty or the same as the last one. -/
def kept (tables : List LineOffsetTable) : Option Nat → List Event → Checked (List Step)
  | _, [] => .ok []
  | prev, .text columns :: events => kept tables prev events >>= fun steps => .ok (.text columns :: steps)
  | prev, .newline :: events => kept tables prev events >>= fun steps => .ok (.newline :: steps)
  | prev, .mapping none :: events => kept tables prev events
  | prev, .mapping (some start) :: events =>
    if prev = some start then kept tables prev events
    else
      located tables start >>= fun mapping =>
      kept tables (some start) events >>= fun steps => .ok (mapping ++ steps)

/-- A table with its lines in order, as `generate` has them, and with columns that are `i32`s -/
structure Tables (tables : List LineOffsetTable) : Prop where
  increasing : (Generator.starts tables).Pairwise (· < ·)
  columns : ∀ row ∈ tables, ∀ column ∈ row.columnsForNonAscii, column < 2147483648

def Event.Fits : Event → Prop
  | mapping (some start) => start < 2147483648
  | _ => True

variable {tables : List LineOffsetTable} {events : List Event} {steps : List Step}

theorem originalColumn_lt (h : Tables tables) {start idx : Nat} {column : Int} (hcolumn : originalColumn tables start idx = .ok column) :
    column < 2147483648 := by
  obtain ⟨row, hrow, hcolumn⟩ := bind_eq_ok.1 hcolumn
  have hrow : row ∈ tables := mem_of_indexAt hrow
  simp only at hcolumn
  split at hcolumn
  · exact h.columns row hrow column (mem_of_indexAt hcolumn)
  · have hrange := (Internal.i32_range (start - i32 row.byteOffsetToStartOfLine)).2
    rw [← Except.ok.inj hcolumn]
    exact Int.lt_of_le_of_lt hrange (by decide)

theorem located_inRange (h : Tables tables) {start : Nat} (hstart : start < 2147483648) (hsteps : located tables start = .ok steps) :
    ∀ st ∈ steps, st.InRange := by
  unfold located at hsteps
  split at hsteps
  · cases hsteps
    exact List.forall_mem_nil _
  · obtain ⟨column, hcolumn, hsteps⟩ := bind_eq_ok.1 hsteps
    cases hsteps
    exact List.forall_mem_singleton.2 ⟨findLine_lt h.increasing hstart, originalColumn_lt h hcolumn⟩

/-- The lines and the columns of the mappings that are added are `i32`s. -/
theorem kept_inRange (h : Tables tables) (hfits : ∀ event ∈ events, event.Fits) {prev : Option Nat}
    (hkept : kept tables prev events = .ok steps) : ∀ st ∈ steps, st.InRange := by
  induction prev, events using kept.induct generalizing steps with
  | case1 => cases hkept; exact List.forall_mem_nil _
  | case2 prev columns events ih =>
    obtain ⟨rest, hrest, hsteps⟩ := bind_eq_ok.1 hkept
    cases hsteps
    exact List.forall_mem_cons.2 ⟨trivial, ih (List.forall_mem_cons.1 hfits).2 hrest⟩
  | case3 prev events ih =>
    obtain ⟨rest, hrest, hsteps⟩ := bind_eq_ok.1 hkept
    cases hsteps
    exact List.forall_mem_cons.2 ⟨trivial, ih (List.forall_mem_cons.1 hfits).2 hrest⟩
  | case4 prev events ih => exact ih (List.forall_mem_cons.1 hfits).2 hkept
  | case5 events start ih =>
    rw [kept, if_pos rfl] at hkept
    exact ih (List.forall_mem_cons.1 hfits).2 hkept
  | case6 prev start events hprev ih =>
    obtain ⟨hstart, hfits⟩ := List.forall_mem_cons.1 hfits
    rw [kept, if_neg hprev] at hkept
    obtain ⟨mapping, hmapping, hkept⟩ := bind_eq_ok.1 hkept
    obtain ⟨rest, hrest, hsteps⟩ := bind_eq_ok.1 hkept
    cases hsteps
    exact List.forall_mem_append.2 ⟨located_inRange h hstart hmapping, ih hfits hrest⟩

namespace SourceBuilder

/-- Where a mapping is added, the builder goes on with the line and the column of the table. -/
theorem addSourceMapping_start (h : Tables tables) {b : SourceBuilder} (hb : b.lineOffsetTables = tables) {start : Nat}
    (hstart : start < 2147483648) (hprev : b.prevLoc ≠ some start) :
    b.addSourceMapping (some start) = located tables start >>= fun mapping =>
      .ok {b with prevLoc := some start, builder := mapping.foldl Builder.step b.builder} := by
  unfold addSourceMapping located
  simp only
  rw [if_neg hprev, hb]
  split
  · rfl
  · rw [findLineWithHint_eq_findLine h.increasing hstart, bind_assoc]
    rfl

/-- The builder makes of the calls the steps that are kept, and fails where they do. -/
theorem run_eq (h : Tables tables) (hfits : ∀ event ∈ events, event.Fits) {b : SourceBuilder}
    (hb : b.lineOffsetTables = tables) :
    (events.foldlM step b >>= fun b' => .ok b'.builder) =
      kept tables b.prevLoc events >>= fun steps => .ok (steps.foldl Builder.step b.builder) := by
  induction events generalizing b with
  | nil => rfl
  | cons event events ih =>
    obtain ⟨hfit, hothers⟩ := List.forall_mem_cons.1 hfits
    rw [List.foldlM_cons]
    cases event with
    | text columns =>
      have hrest := ih hothers (b := {b with builder := b.builder.step (.text columns)}) hb
      show (events.foldlM step _ >>= _) = (kept tables b.prevLoc events >>= _) >>= _
      rw [hrest, bind_assoc]
      rfl
    | newline =>
      have hrest := ih hothers (b := {b with builder := b.builder.step .newline}) hb
      show (events.foldlM step _ >>= _) = (kept tables b.prevLoc events >>= _) >>= _
      rw [hrest, bind_assoc]
      rfl
    | mapping loc =>
      cases loc with
      | none => exact ih hothers hb
      | some start =>
        by_cases hprev : b.prevLoc = some start
        · have hsame : b.step (.mapping (some start)) = .ok b := if_pos hprev
          rw [kept, if_pos hprev, hsame]
          exact ih hothers hb
        · have hstep : b.step (.mapping (some start)) = _ := addSourceMapping_start h hb hfit hprev
          rw [kept, if_neg hprev, hstep, bind_assoc, bind_assoc, bind_assoc]
          cases located tables start with
          | error e => rfl
          | ok mapping =>
            have hrest := ih hothers (b := {b with prevLoc := some start, builder := mapping.foldl Builder.step b.builder}) hb
            show (events.foldlM step _ >>= _) = (kept tables (some start) events >>= _) >>= _
            rw [hrest, bind_assoc]
            cases kept tables (some start) events with
            | error e => rfl
            | ok steps => exact congrArg Except.ok List.foldl_append.symm

end SourceBuilder

/-- What is printed is read as the mappings that the printer came to. -/
theorem parse_printed (cover : Bool) (h : Tables tables) (hfits : ∀ event ∈ events, event.Fits)
    (hkept : kept tables none events = .ok steps) (hwidth : stepsWidth steps < 2147483648) {sourcesCount : Int}
    (hcount : 0 < sourcesCount) (allowNames : Bool) :
    Returns (events.foldlM SourceBuilder.step (.init cover tables)) fun b =>
      parse ⟨allowNames, false⟩ sourcesCount b.builder.generateChunk.buffer =
        .ok ⟨false, (told cover false false .zero 0 steps).map SourceMapState.toMapping⟩ := by
  have hrun := SourceBuilder.run_eq h hfits (b := .init cover tables) rfl
  have hsteps := parse_steps cover hwidth (kept_inRange h hfits hkept) hcount allowNames
  have hkept : kept tables (SourceBuilder.init cover tables).prevLoc events = .ok steps := hkept
  rw [hkept] at hrun
  obtain ⟨b, hb, hbuilder⟩ := bind_eq_ok.1 hrun
  refine ⟨b, hb, ?_⟩
  show parse _ _ b.builder.generateChunk.buffer = _
  rw [Except.ok.inj hbuilder]
  exact hsteps

/-- The place that is told twice has one mapping, and the second line starts with that of the first line. -/
theorem parse_printed_covered :
    Returns ([.mapping (some 1), .text 2, .mapping (some 1), .mapping none, .newline, .text 3, .mapping (some 4)].foldlM
        SourceBuilder.step (.init true [⟨[], i32Max, 0⟩, ⟨[], i32Max, 3⟩])) fun b =>
      parse ⟨false, false⟩ 1 b.builder.generateChunk.buffer = .ok ⟨false,
        [⟨⟨0, 0⟩, ⟨0, 1⟩, 0, -1⟩, ⟨⟨1, 0⟩, ⟨0, 1⟩, 0, -1⟩, ⟨⟨1, 3⟩, ⟨1, 1⟩, 0, -1⟩]⟩ := by
  have htables : Tables [⟨[], i32Max, 0⟩, ⟨[], i32Max, 3⟩] := ⟨by decide, by decide⟩
  have hsteps : kept [⟨[], i32Max, 0⟩, ⟨[], i32Max, 3⟩] none [.mapping (some 1), .text 2, .mapping (some 1), .mapping none,
      .newline, .text 3, .mapping (some 4)] = .ok [.mapping 0 1, .text 2, .newline, .text 3, .mapping 1 1] := by decide +kernel
  exact parse_printed true htables (by simp [Event.Fits]) hsteps (by decide) (by decide) false

end Funbun.SourceMap
