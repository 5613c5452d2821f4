import Mathlib.Data.List.Basic
import Funbun.SourceMap.Vlq

/-! What a mappings text means.

A text is a list of tokens: a line break, or a segment, the four numbers by which a mapping differs from the one before it.
A text that is run from another place gives the same mappings in that place, so long as it breaks lines in the same way. -/
namespace Funbun.SourceMap

/-- `generatedLine` is not written in a text. -/
structure SourceMapState where
  generatedLine : Int
  generatedColumn : Int
  sourceIndex : Int
  originalLine : Int
  originalColumn : Int
  deriving DecidableEq

/-- `Default` -/
def SourceMapState.zero : SourceMapState := ⟨0, 0, 0, 0, 0⟩

structure LineColumnOffset where
  lines : Int
  columns : Int
  deriving DecidableEq

/-- `LineColumnOffset::add` -/
def LineColumnOffset.add (a b : LineColumnOffset) : LineColumnOffset :=
  if b.lines = 0 then {a with columns := a.columns + b.columns} else ⟨a.lines + b.lines, b.columns⟩

theorem LineColumnOffset.add_lines (a b : LineColumnOffset) : (a.add b).lines = a.lines + b.lines := by
  unfold add
  split
  · rename_i h
    simp [h]
  · rfl

theorem LineColumnOffset.add_columns (a b : LineColumnOffset) :
    (a.add b).columns = if b.lines = 0 then a.columns + b.columns else b.columns := by
  unfold add
  split <;> rfl

structure Segment where
  generatedColumn : Int
  sourceIndex : Int
  originalLine : Int
  originalColumn : Int

inductive Token where
  | newline
  | segment (s : Segment)

namespace SourceMapState

def generated (s : SourceMapState) : LineColumnOffset := ⟨s.generatedLine, s.generatedColumn⟩

def newline (s : SourceMapState) : SourceMapState :=
  {s with generatedLine := s.generatedLine + 1, generatedColumn := 0}

def move (s : SourceMapState) (d : Segment) : SourceMapState :=
  { s with
    generatedColumn := s.generatedColumn + d.generatedColumn
    sourceIndex := s.sourceIndex + d.sourceIndex
    originalLine := s.originalLine + d.originalLine
    originalColumn := s.originalColumn + d.originalColumn }

/-- By how much one state differs from another -/
def sub (s prev : SourceMapState) : Segment :=
  ⟨s.generatedColumn - prev.generatedColumn, s.sourceIndex - prev.sourceIndex,
    s.originalLine - prev.originalLine, s.originalColumn - prev.originalColumn⟩

theorem move_sub {s prev : SourceMapState} (h : s.generatedLine = prev.generatedLine) : prev.move (s.sub prev) = s := by
  cases s
  cases prev
  simp only at h
  simp [move, sub, h]

def run (s : SourceMapState) : List Token → SourceMapState
  | [] => s
  | .newline :: tokens => s.newline.run tokens
  | .segment d :: tokens => (s.move d).run tokens

/-- The mappings of a text, each the state that its segment leads to -/
def positions (s : SourceMapState) : List Token → List SourceMapState
  | [] => []
  | .newline :: tokens => s.newline.positions tokens
  | .segment d :: tokens => s.move d :: (s.move d).positions tokens

theorem run_append (s : SourceMapState) (a b : List Token) : s.run (a ++ b) = (s.run a).run b := by
  induction a generalizing s with
  | nil => rfl
  | cons t tokens ih => cases t <;> exact ih _

theorem positions_append (s : SourceMapState) (a b : List Token) :
    s.positions (a ++ b) = s.positions a ++ (s.run a).positions b := by
  induction a generalizing s with
  | nil => rfl
  | cons t tokens ih =>
    cases t with
    | newline => exact ih _
    | segment d => exact congrArg _ (ih _)

def newlines (n : Nat) : List Token := List.replicate n .newline

theorem run_newlines (s : SourceMapState) (n : Nat) :
    s.run (newlines n) =
      {s with generatedLine := s.generatedLine + n, generatedColumn := if n = 0 then s.generatedColumn else 0} := by
  induction n generalizing s with
  | zero => simp [newlines, run]
  | succ n ih =>
    show s.newline.run (newlines n) = _
    rw [ih]
    simp [newline]
    omega

theorem positions_newlines (s : SourceMapState) (n : Nat) : s.positions (newlines n) = [] := by
  induction n generalizing s with
  | zero => rfl
  | succ n ih => exact ih s.newline

/-! ### Another place -/

/-- The state when the text starts somewhere else, in a source of its own -/
def place (start : LineColumnOffset) (source : Int) (s : SourceMapState) : SourceMapState :=
  ⟨(start.add s.generated).lines, (start.add s.generated).columns, s.sourceIndex + source, s.originalLine,
    s.originalColumn⟩

theorem place_generatedLine (start : LineColumnOffset) (source : Int) (s : SourceMapState) :
    (s.place start source).generatedLine = start.lines + s.generatedLine := start.add_lines s.generated

theorem place_generatedColumn (start : LineColumnOffset) (source : Int) (s : SourceMapState) :
    (s.place start source).generatedColumn =
      if s.generatedLine = 0 then start.columns + s.generatedColumn else s.generatedColumn :=
  start.add_columns s.generated

theorem place_ext {start : LineColumnOffset} {source : Int} {s t : SourceMapState}
    (hline : t.generatedLine = start.lines + s.generatedLine)
    (hcolumn : t.generatedColumn =
      if s.generatedLine = 0 then start.columns + s.generatedColumn else s.generatedColumn)
    (hsource : t.sourceIndex = s.sourceIndex + source) (horiginal : t.originalLine = s.originalLine)
    (horiginal' : t.originalColumn = s.originalColumn) : t = s.place start source := by
  rw [← place_generatedLine start source s] at hline
  rw [← place_generatedColumn start source s] at hcolumn
  cases t
  simp only at hline hcolumn hsource horiginal horiginal'
  rw [hline, hcolumn, hsource, horiginal, horiginal']
  rfl

variable {s : SourceMapState} {tokens : List Token}

theorem place_newline (start : LineColumnOffset) (source : Int) (h : 0 ≤ s.generatedLine) :
    (s.place start source).newline = s.newline.place start source := by
  have hline : s.newline.generatedLine ≠ 0 := by
    show s.generatedLine + 1 ≠ 0
    omega
  apply place_ext
  · show (s.place start source).generatedLine + 1 = start.lines + (s.generatedLine + 1)
    rw [place_generatedLine]
    omega
  · rw [if_neg hline]
    rfl
  all_goals rfl

theorem place_move (start : LineColumnOffset) (source : Int) (s : SourceMapState) (d : Segment) :
    (s.place start source).move d = (s.move d).place start source := by
  apply place_ext
  · exact place_generatedLine start source s
  · show (s.place start source).generatedColumn + _ = if s.generatedLine = 0 then _ else _
    rw [place_generatedColumn]
    split
    · exact add_assoc _ _ _
    · rfl
  · show s.sourceIndex + source + d.sourceIndex = s.sourceIndex + d.sourceIndex + source
    omega
  all_goals rfl

/-- One token at a time, both texts go on in the same way. -/
theorem positions_place (start : LineColumnOffset) (source : Int) (tokens : List Token) :
    ∀ s : SourceMapState, 0 ≤ s.generatedLine →
      (s.place start source).positions tokens = (s.positions tokens).map (place start source) ∧
      (s.place start source).run tokens = (s.run tokens).place start source := by
  induction tokens with
  | nil => exact fun s _ => ⟨rfl, rfl⟩
  | cons t tokens ih =>
    intro s hs
    cases t with
    | newline =>
      have := ih s.newline (by show 0 ≤ s.generatedLine + 1; omega)
      rw [← place_newline start source hs] at this
      exact this
    | segment d =>
      have := ih (s.move d) hs
      rw [← place_move] at this
      exact ⟨congrArg₂ _ (place_move start source s d) this.1, this.2⟩

/-! ### Bounds -/

/-- The fields are those of a place in a file: no number is negative, and each is an `i32`. -/
structure InBounds (s : SourceMapState) : Prop where
  generatedLine : 0 ≤ s.generatedLine ∧ s.generatedLine < 2147483648
  generatedColumn : 0 ≤ s.generatedColumn ∧ s.generatedColumn < 2147483648
  sourceIndex : 0 ≤ s.sourceIndex ∧ s.sourceIndex < 2147483648
  originalLine : 0 ≤ s.originalLine ∧ s.originalLine < 2147483648
  originalColumn : 0 ≤ s.originalColumn ∧ s.originalColumn < 2147483648

/-- Every state on the way is in bounds. -/
def Within (s : SourceMapState) : List Token → Prop
  | [] => True
  | .newline :: tokens => s.newline.InBounds ∧ s.newline.Within tokens
  | .segment d :: tokens => (s.move d).InBounds ∧ (s.move d).Within tokens

theorem line_le_run (s : SourceMapState) (tokens : List Token) : s.generatedLine ≤ (s.run tokens).generatedLine := by
  induction tokens generalizing s with
  | nil => exact le_rfl
  | cons t tokens ih =>
    cases t with
    | newline => exact le_trans (by show _ ≤ s.generatedLine + 1; omega) (ih s.newline)
    | segment d => exact ih (s.move d)

theorem within_of_positions (hs : s.InBounds)
    (hpositions : ∀ p ∈ s.positions tokens, p.InBounds) (hline : (s.run tokens).generatedLine < 2147483648) :
    s.Within tokens := by
  induction tokens generalizing s with
  | nil => trivial
  | cons t tokens ih =>
    cases t with
    | newline =>
      have hle : s.generatedLine + 1 ≤ (s.newline.run tokens).generatedLine := line_le_run s.newline tokens
      have hlast : (s.newline.run tokens).generatedLine < 2147483648 := hline
      have hnext : s.newline.InBounds := by
        have hcolumn : (0 : Int) ≤ 0 ∧ (0 : Int) < 2147483648 := by decide
        refine ⟨?_, hcolumn, hs.sourceIndex, hs.originalLine, hs.originalColumn⟩
        have := hs.generatedLine
        show 0 ≤ s.generatedLine + 1 ∧ s.generatedLine + 1 < 2147483648
        omega
      exact ⟨hnext, ih hnext hpositions hline⟩
    | segment d =>
      have hnext : (s.move d).InBounds := hpositions _ List.mem_cons_self
      exact ⟨hnext, ih hnext (fun p hp => hpositions p (List.mem_cons_of_mem _ hp)) hline⟩

theorem within_append {a b : List Token} (h : s.Within (a ++ b)) :
    s.Within a ∧ (s.run a).Within b := by
  induction a generalizing s with
  | nil => exact ⟨trivial, h⟩
  | cons t tokens ih =>
    cases t with
    | newline => exact ⟨⟨h.1, (ih h.2).1⟩, (ih h.2).2⟩
    | segment d => exact ⟨⟨h.1, (ih h.2).1⟩, (ih h.2).2⟩

theorem run_inBounds (hs : s.InBounds) (h : s.Within tokens) :
    (s.run tokens).InBounds := by
  induction tokens generalizing s with
  | nil => exact hs
  | cons t tokens ih => cases t <;> exact ih h.1 h.2

theorem positions_inBounds (h : s.Within tokens) :
    ∀ p ∈ s.positions tokens, p.InBounds := by
  induction tokens generalizing s with
  | nil => simp [positions]
  | cons t tokens ih =>
    cases t with
    | newline => exact ih h.2
    | segment d => exact List.forall_mem_cons.2 ⟨h.1, ih h.2⟩

/-- The source at the end is that of the last mapping. -/
theorem run_sourceIndex {source : Int} (hs : s.sourceIndex = source)
    (h : ∀ p ∈ s.positions tokens, p.sourceIndex = source) : (s.run tokens).sourceIndex = source := by
  induction tokens generalizing s with
  | nil => exact hs
  | cons t tokens ih =>
    cases t with
    | newline => exact ih (s := s.newline) hs h
    | segment d => exact ih (h _ List.mem_cons_self) fun p hp => h p (List.mem_cons_of_mem _ hp)

end SourceMapState

/-- The numbers of a segment can be written. -/
def Segment.InRange (d : Segment) : Prop :=
  Vlq.InRange d.generatedColumn ∧ Vlq.InRange d.sourceIndex ∧ Vlq.InRange d.originalLine ∧ Vlq.InRange d.originalColumn

theorem Segment.inRange_of_move {s : SourceMapState} {d : Segment} (hs : s.InBounds) (hd : (s.move d).InBounds) :
    d.InRange := by
  have hcolumn := hd.generatedColumn
  have hsource := hd.sourceIndex
  have hline := hd.originalLine
  have horiginal := hd.originalColumn
  simp only [SourceMapState.move] at hcolumn hsource hline horiginal
  have := hs.generatedColumn
  have := hs.sourceIndex
  have := hs.originalLine
  have := hs.originalColumn
  unfold Segment.InRange Vlq.InRange
  omega

end Funbun.SourceMap
