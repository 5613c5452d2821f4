import Funbun.SourceMap.LineOffsetProofs

/-! What a table says of a place in a source.

The line is always right. The column of the first character of a line that is not ASCII is stored twice, so that every
column behind it stands one byte too far back. -/
namespace Funbun.SourceMap
open Library Strings

/-- Whether a text has only ASCII -/
def Ascii (text : List Char) : Prop := ∀ c ∈ text, c.toNat ≤ 0x7F

namespace LineOffsetTable
namespace Generator

/-! ### The columns of a line -/

/-- What is stored of a line when its last character has been counted -/
inductive Stored (line : List Char) (s : Generator) : Prop where
  | plain (ascii : Ascii line) (columns : s.columnsForNonAscii = [])
  | wide (front : List Char) (c : Char) (split : line = front ++ [c]) (wide : ¬Ascii line)
    (first : s.byteOffsetToFirstNonAscii ≤ size front)
    (length : s.columnsForNonAscii.length + s.byteOffsetToFirstNonAscii = size front + 2)
    (last : s.columnsForNonAscii.getLast? = some (units front : Int))
    (columnByteOffset : s.columnByteOffset = size front + 1)

/-- What is stored of a line when a character behind it has been counted -/
inductive Filled (line : List Char) (c : Char) (s : Generator) : Prop where
  | plain (ascii : Ascii line) (asciiNext : c.toNat ≤ 0x7F) (columns : s.columnsForNonAscii = [])
  | first (ascii : Ascii line) (wideNext : 0x7F < c.toNat)
    (columns : s.columnsForNonAscii = [(units line : Int), (units line : Int)])
    (first : s.byteOffsetToFirstNonAscii = size line) (columnByteOffset : s.columnByteOffset = size line + 1)
  | later (front : List Char) (d : Char) (columns : List Int) (split : line = front ++ [d]) (wide : ¬Ascii line)
    (first : s.byteOffsetToFirstNonAscii ≤ size front)
    (length : columns.length + s.byteOffsetToFirstNonAscii = size front + 2)
    (last : columns.getLast? = some (units front : Int))
    (filled : s.columnsForNonAscii = columns ++ List.replicate (size [d]) (units line : Int))
    (columnByteOffset : s.columnByteOffset = size line + 1)

/-- What holds when a text has been read, `next` being the character behind it -/
structure At (done : List Char) (next : Option Char) (s : Generator) : Prop where
  reading : Reading (size done) s
  lines : s.list.length = terminators done next
  column : s.column = units (lastLine done next)
  start : s.lineStart (size done) + size (lastLine done next) = size done
  stored : Stored (lastLine done next) s

theorem at_init (next : Option Char) : At [] next init :=
  ⟨reading_init, rfl, rfl, rfl, .plain (List.forall_mem_nil _) rfl⟩

section Filling
variable {done : List Char} {c : Char} {s : Generator} (h : At done (some c) s) (hfits : size done < 2147483648)
include h hfits

theorem At.lineBytes : u32 (size done - s.lineStart (size done) : Int) = size (lastLine done (some c)) := by
  have hstart := h.start
  rw [u32_sub (by omega) (by show _ < 4294967296; omega)]
  omega

theorem At.filled : Filled (lastLine done (some c)) c ((s.prepare c.toNat (size done)).fillColumns (size done)) := by
  have hbytes := h.lineBytes hfits
  have hstart := h.start
  have hline := (prepared_startLine s (size done)).lineByteOffset
  have hcolumn := (prepared_startLine s (size done)).column
  rcases h.stored with ⟨hascii, hcolumns⟩ | ⟨front, d, hsplit, hwide, hfirst, hlength, hlast, hoffset⟩
  · have hnone : (s.startLine (size done)).columnsForNonAscii = [] := (columns_startLine s _).trans hcolumns
    rcases Nat.lt_or_ge 0x7F c.toNat with hc | hc
    · have hprepare : s.prepare c.toNat (size done) =
          { s.startLine (size done) with
            columnsForNonAscii := [s.column]
            columnByteOffset := size (lastLine done (some c))
            byteOffsetToFirstNonAscii := size (lastLine done (some c)) } := by
        unfold prepare meetNonAscii
        rw [if_pos ⟨hc, hnone⟩]
        simp only [hline, hbytes, hcolumn]
      have hneed : u32 (u32 (size (lastLine done (some c)) - size (lastLine done (some c)) : Int) + 1) = 1 := by
        rw [Int.sub_self]
        decide
      have hnext : u32 ((size (lastLine done (some c)) : Int) + 1) = size (lastLine done (some c)) + 1 :=
        u32_of_lt (n := size (lastLine done (some c)) + 1) (by show _ < 4294967296; omega)
      rw [hprepare]
      unfold fillColumns
      rw [if_neg (List.cons_ne_nil _ _)]
      simp only [hline, hbytes, hneed, hnext]
      refine .first hascii hc ?_ rfl rfl
      rw [hcolumn, h.column]
      rfl
    · rw [prepare_ascii hc]
      unfold fillColumns
      rw [if_pos hnone]
      exact .plain hascii hc hnone
  · have hne : s.columnsForNonAscii ≠ [] := fun heq => by
      rw [heq] at hlast
      cases hlast
    have hcolumnNe : s.column ≠ 0 := by
      have hpos := @units_pos (lastLine done (some c)) (by rw [hsplit]; simp)
      have := h.column
      omega
    have hprepare : s.prepare c.toNat (size done) = s := by
      unfold prepare meetNonAscii
      rw [startLine_of_column hcolumnNe, if_neg fun hand => hne hand.2]
    have hlineOffset : s.lineByteOffset = s.lineStart (size done) := (if_neg hcolumnNe).symm
    have hsize : size (lastLine done (some c)) = size front + size [d] := by rw [hsplit, size_append]
    have hpos := size_pos d
    have hneed : u32 (u32 (size (lastLine done (some c)) - s.columnByteOffset : Int) + 1) = size [d] := by
      rw [hoffset, u32_sub (by omega) (by show _ < 4294967296; omega)]
      have hcast : ((size (lastLine done (some c)) - (size front + 1) : Nat) : Int) + 1 = (size [d] : Nat) := by omega
      rw [hcast, u32_of_lt (by show _ < 4294967296; omega)]
    have hnext : u32 ((size (lastLine done (some c)) : Int) + 1) = size (lastLine done (some c)) + 1 :=
      u32_of_lt (n := size (lastLine done (some c)) + 1) (by show _ < 4294967296; omega)
    rw [hprepare]
    unfold fillColumns
    rw [if_neg hne, hlineOffset]
    simp only [hbytes, hneed, hnext]
    refine .later front d s.columnsForNonAscii hsplit hwide hfirst hlength hlast ?_ rfl
    rw [h.column]

end Filling

theorem Filled.stored {line : List Char} {c : Char} {s : Generator} (h : Filled line c s) (columns : Nat) :
    Stored (line ++ [c]) (s.advance columns) := by
  rcases h with ⟨hascii, hc, hcolumns⟩ | ⟨hascii, hc, hcolumns, hfirst, hoffset⟩ |
    ⟨front, d, cols, hsplit, hwide, hfirst, hlength, -, hfilled, hoffset⟩
  · refine .plain ?_ hcolumns
    exact List.forall_mem_append.2 ⟨hascii, List.forall_mem_singleton.2 hc⟩
  · refine .wide line c rfl ?_ (Nat.le_of_eq hfirst) ?_ ?_ hoffset
    · intro hall
      exact absurd (hall c (by simp)) (Nat.not_le.2 hc)
    · show s.columnsForNonAscii.length + s.byteOffsetToFirstNonAscii = _
      rw [hcolumns, hfirst]
      show 2 + size line = _
      omega
    · show s.columnsForNonAscii.getLast? = _
      rw [hcolumns]
      rfl
  · have hsize : size line = size front + size [d] := by rw [hsplit, size_append]
    have hpos := size_pos d
    refine .wide line c rfl ?_ (Nat.le_trans hfirst (by omega)) ?_ ?_ hoffset
    · intro hall
      exact hwide fun e he => hall e (List.mem_append_left _ he)
    · show s.columnsForNonAscii.length + s.byteOffsetToFirstNonAscii = _
      rw [hfilled, List.length_append, List.length_replicate]
      omega
    · show s.columnsForNonAscii.getLast? = _
      rw [hfilled, List.getLast?_append, List.getLast?_replicate, if_neg (by omega)]
      rfl

/-- One character more -/
theorem At.readChar {done : List Char} {c : Char} {next : Option Char} {s : Generator} (h : At done (some c) s)
    (hfits : size (done ++ [c]) < 2147483648) : At (done ++ [c]) next (s.readChar (size done) c next) := by
  have hsize : size (done ++ [c]) = size done + size [c] := size_append done [c]
  have hpos := size_pos c
  have hfilled := h.filled (by omega)
  have hprepared := (prepared s c.toNat (size done)).fillColumns
  have hreading : Reading (size done + size [c]) (s.readChar (size done) c next) := reading_readChar h.reading (by omega)
  rw [← hsize] at hreading
  have hlines := h.lines
  have hstart := h.start
  unfold Generator.readChar at hreading ⊢
  simp only at hreading ⊢
  by_cases hends : endsLine c next = true
  · rw [if_pos hends] at hreading ⊢
    have hline : lastLine (done ++ [c]) next = [] := by rw [lastLine_concat, if_pos hends]
    refine ⟨hreading, ?_, ?_, ?_, ?_⟩
    · rw [terminators_concat, if_pos hends, ← hlines]
      show (_ ++ [_]).length = _
      rw [List.length_append, hprepared.list]
      rfl
    · rw [hline]
      rfl
    · rw [hline]
      rfl
    · rw [hline]
      exact .plain (List.forall_mem_nil _) rfl
  · rw [if_neg hends] at hreading ⊢
    have hline : lastLine (done ++ [c]) next = lastLine done (some c) ++ [c] := by rw [lastLine_concat, if_neg hends]
    have hcolumn := advance_column hprepared h.reading (units_le_size [c]) (by omega)
    have hunits := units_pos (List.cons_ne_nil c [])
    refine ⟨hreading, ?_, ?_, ?_, ?_⟩
    · rw [terminators_concat, if_neg hends, Nat.add_zero, ← hlines]
      exact congrArg _ hprepared.list
    · rw [hcolumn, hline, units_append, h.column, Nat.cast_add]
    · have hne : (((s.prepare c.toNat (size done)).fillColumns (size done)).advance (units [c])).column ≠ 0 := by
        have := h.column
        omega
      rw [lineStart, if_neg hne, hline, size_append, hsize]
      rw [← Nat.add_assoc]
      exact congrArg (· + size [c]) ((congrArg (· + _) hprepared.lineByteOffset).trans hstart)
    · rw [hline]
      exact hfilled.stored _

theorem at_readText {done text : List Char} {next : Option Char} {s : Generator} (h : At done (text.head?.or next) s)
    (hfits : size (done ++ text) < 2147483648) : At (done ++ text) next (readText s (size done) text next) := by
  induction text generalizing done s with
  | nil =>
    rw [List.append_nil]
    exact h
  | cons c text ih =>
    have hsplit : done ++ c :: text = (done ++ [c]) ++ text := by rw [List.append_assoc, List.singleton_append]
    have hsize := size_append (done ++ [c]) text
    rw [← hsplit] at hsize
    have hread : At (done ++ [c]) (text.head?.or next) (s.readChar (size done) c (text.head?.or next)) :=
      At.readChar h (by omega)
    rw [hsplit] at hfits ⊢
    rw [readText, ← size_append done [c]]
    exact ih hread hfits

/-! ### The rows behind -/

/-- The row of the line, as far as it has been read -/
def row (s : Generator) : LineOffsetTable := ⟨s.columnsForNonAscii, s.byteOffsetToFirstNonAscii, s.lineByteOffset⟩

theorem finish_eq (contents : List UInt8) (hfits : contents.length < 2147483648) (s : Generator) :
    ∃ row, finish contents s = s.list ++ [row] ∧ row.byteOffsetToStartOfLine = s.lineStart contents.length ∧
      row.byteOffsetToFirstNonAscii = s.byteOffsetToFirstNonAscii ∧
      (s.columnsForNonAscii = [] → row.columnsForNonAscii = []) ∧ s.columnsForNonAscii <+: row.columnsForNonAscii := by
  unfold finish appendRow lineStart
  rw [u32_of_lt (by show _ < 4294967296; omega)]
  by_cases hnone : s.columnsForNonAscii = []
  · by_cases hcolumn : s.column = 0
    · simp only [hcolumn, hnone, if_true]
      exact ⟨_, rfl, rfl, rfl, fun _ => rfl, List.prefix_rfl⟩
    · simp only [hcolumn, hnone, if_false, if_true]
      exact ⟨_, rfl, rfl, rfl, fun _ => rfl, List.prefix_rfl⟩
  · by_cases hcolumn : s.column = 0
    · simp only [hcolumn, hnone, if_false, if_true]
      exact ⟨_, rfl, rfl, rfl, fun h => h.elim, List.prefix_append _ _⟩
    · simp only [hcolumn, hnone, if_false]
      exact ⟨_, rfl, rfl, rfl, fun h => h.elim, List.prefix_append _ _⟩

section Behind
variable {contents : List UInt8} (hcontents : contents.length < 2147483648)
include hcontents

variable {text : List Char} {offset : Nat} {s : Generator}

/-- The rows that are added start where the line starts, or behind. -/
theorem rows_behind (hs : Reading offset s) (hoffset : offset + size text = contents.length) :
    ∃ more, finish contents (readText s offset text none) = s.list ++ more ∧
      ∀ row ∈ more, s.lineStart offset ≤ row.byteOffsetToStartOfLine := by
  induction text generalizing s offset with
  | nil =>
    obtain ⟨row, hrow, hstart, -⟩ := finish_eq contents hcontents s
    have hlength : offset = contents.length := hoffset
    refine ⟨[row], hrow, fun r hr => ?_⟩
    rw [List.mem_singleton.1 hr, hstart, hlength]
  | cons c text ih =>
    have hsize := size_cons c text
    have hpos := size_pos c
    have hprepared := (prepared s c.toNat offset).fillColumns
    have hreading : Reading (offset + size [c]) (s.readChar offset c (text.head?.or none)) := reading_readChar hs (by omega)
    obtain ⟨more, hmore, hstarts⟩ := ih hreading (by omega)
    rw [readText, hmore]
    have hwithin := hs.within
    unfold readChar at hreading hstarts ⊢
    simp only at hreading hstarts ⊢
    by_cases hends : endsLine c (text.head?.or none) = true
    · rw [if_pos hends] at hreading hstarts ⊢
      refine ⟨row ((s.prepare c.toNat offset).fillColumns offset) :: more, ?_, List.forall_mem_cons.2 ⟨?_, ?_⟩⟩
      · show (_ ++ [_]) ++ more = _
        rw [hprepared.list, List.append_assoc, List.singleton_append]
        rfl
      · exact Nat.le_of_eq hprepared.lineByteOffset.symm
      · intro row hrow
        have := hstarts row hrow
        have hzero : lineStart (((s.prepare c.toNat offset).fillColumns offset).newline) (offset + size [c]) =
          offset + size [c] := if_pos rfl
        omega
    · rw [if_neg hends] at hreading hstarts ⊢
      have hcolumn := advance_column hprepared hs (units_le_size [c]) (by omega)
      have hunits := units_pos (List.cons_ne_nil c [])
      have hzero := hs.column
      refine ⟨more, congrArg (· ++ more) hprepared.list, fun row hrow => ?_⟩
      have hrest := hstarts row hrow
      rw [lineStart, if_neg (by omega)] at hrest
      exact Nat.le_trans (Nat.le_of_eq hprepared.lineByteOffset.symm) hrest

/-- What the row of a line keeps of a state in the middle of the line -/
structure Kept (s : Generator) (offset : Nat) (row : LineOffsetTable) : Prop where
  start : row.byteOffsetToStartOfLine = s.lineByteOffset
  columns : s.columnsForNonAscii <+: row.columnsForNonAscii
  first : s.columnsForNonAscii ≠ [] → row.byteOffsetToFirstNonAscii = s.byteOffsetToFirstNonAscii
  behind : s.columnsForNonAscii = [] → row.columnsForNonAscii = [] ∨
    (offset ≤ s.lineByteOffset + row.byteOffsetToFirstNonAscii ∧ row.byteOffsetToFirstNonAscii < 2147483648)

omit hcontents in
theorem kept_row (s : Generator) (offset : Nat) : Kept s offset s.row := ⟨rfl, List.prefix_rfl, fun _ => rfl, .inl⟩

omit hcontents in
/-- Counting a character takes back nothing. -/
theorem Kept.of_filled {offset later c : Nat} {row : LineOffsetTable} (hs : Reading offset s)
    (hcolumn : s.column ≠ 0) (hfits : offset < 2147483648) (hle : offset ≤ later)
    (h : Kept ((s.prepare c offset).fillColumns offset) later row) : Kept s offset row := by
  have hstart : s.lineStart offset = s.lineByteOffset := if_neg hcolumn
  have hwithin := hs.within
  have hprepared := (prepared s c offset).fillColumns.lineByteOffset
  rw [hstart] at hprepared hwithin
  by_cases hnone : s.columnsForNonAscii = []
  · refine ⟨h.start.trans hprepared, hnone ▸ List.nil_prefix, fun hne => absurd hnone hne, fun _ => ?_⟩
    by_cases hc : 0x7F < c
    · -- the line has its first character here that is not ASCII
      right
      have hprepare : s.prepare c offset =
          { s with
            columnsForNonAscii := [s.column]
            columnByteOffset := offset - s.lineByteOffset
            byteOffsetToFirstNonAscii := offset - s.lineByteOffset } := by
        unfold prepare meetNonAscii
        rw [startLine_of_column hcolumn, if_pos ⟨hc, hnone⟩, u32_sub hwithin (by show _ < 4294967296; omega)]
      rw [hprepare] at h
      unfold fillColumns at h
      rw [if_neg (List.cons_ne_nil _ _)] at h
      have hfirst : row.byteOffsetToFirstNonAscii = offset - s.lineByteOffset := h.first (List.cons_ne_nil _ _)
      omega
    · have hprepare : (s.prepare c offset).fillColumns offset = s := by
        rw [prepare_ascii (Nat.not_lt.1 hc), startLine_of_column hcolumn]
        exact if_pos hnone
      rw [hprepare] at h
      rcases h.behind hnone with hnil | ⟨hlater, hrange⟩
      · exact .inl hnil
      · exact .inr ⟨Nat.le_trans hle hlater, hrange⟩
  · have hprepare : s.prepare c offset = s := by
      unfold prepare meetNonAscii
      rw [startLine_of_column hcolumn, if_neg fun hand => hnone hand.2]
    rw [hprepare] at h
    unfold fillColumns at h
    rw [if_neg hnone] at h
    refine ⟨h.start, (List.prefix_append _ _).trans h.columns, fun _ => h.first ?_, fun hnil => absurd hnil hnone⟩
    exact fun hnil => hnone (List.append_eq_nil_iff.1 hnil).1

/-- The rows from the line on that a state is on, as far as `known` says -/
def RowsFrom (contents : List UInt8) (s : Generator) (offset : Nat) (text : List Char) (known : Generator) (later : Nat) :
    Prop :=
  ∃ row more, finish contents (readText s offset text none) = s.list ++ row :: more ∧ Kept known later row ∧
    ∀ r ∈ more, later ≤ r.byteOffsetToStartOfLine

/-- The line of a character ends behind it or goes on. -/
theorem rowsFrom_char {c : Char} (hs : Reading offset s) (hoffset : offset + size (c :: text) = contents.length)
    (hline : ∀ s', Reading (offset + size [c]) s' → s'.column ≠ 0 →
      RowsFrom contents s' (offset + size [c]) text s' (offset + size [c])) :
    RowsFrom contents s offset (c :: text) ((s.prepare c.toNat offset).fillColumns offset) (offset + size [c]) := by
  have hsize := size_cons c text
  have hprepared := (prepared s c.toNat offset).fillColumns
  have hreading : Reading (offset + size [c]) (s.readChar offset c (text.head?.or none)) := reading_readChar hs (by omega)
  unfold RowsFrom
  rw [readText]
  by_cases hends : endsLine c (text.head?.or none) = true
  · have hread : s.readChar offset c (text.head?.or none) = ((s.prepare c.toNat offset).fillColumns offset).newline :=
      if_pos hends
    rw [hread] at hreading ⊢
    obtain ⟨more, hmore, hstarts⟩ := @rows_behind _ hcontents text _ _ hreading (by omega)
    refine ⟨((s.prepare c.toNat offset).fillColumns offset).row, more, ?_, kept_row _ _, hstarts⟩
    rw [hmore]
    show (_ ++ [_]) ++ more = _
    rw [hprepared.list, List.append_assoc, List.singleton_append]
    rfl
  · have hread : s.readChar offset c (text.head?.or none) =
        ((s.prepare c.toNat offset).fillColumns offset).advance (units [c]) := if_neg hends
    rw [hread] at hreading ⊢
    have hadvance := advance_column hprepared hs (units_le_size [c]) (by omega)
    have hunits := units_pos (List.cons_ne_nil c [])
    have hzero := hs.column
    obtain ⟨row, more, hmore, hrow, hstarts⟩ := hline _ hreading (by omega)
    exact ⟨row, more, hmore.trans (congrArg (· ++ row :: more) hprepared.list),
      ⟨hrow.start, hrow.columns, hrow.first, hrow.behind⟩, hstarts⟩

/-- A line that goes on ends up in the row behind those that are there. -/
theorem rowsFrom_line (hs : Reading offset s) (hcolumn : s.column ≠ 0)
    (hoffset : offset + size text = contents.length) : RowsFrom contents s offset text s offset := by
  induction text generalizing s offset with
  | nil =>
    obtain ⟨row, hrow, hstart, hfirst, hnone, hcolumns⟩ := finish_eq contents hcontents s
    rw [lineStart, if_neg hcolumn] at hstart
    exact ⟨row, [], hrow, ⟨hstart, hcolumns, fun _ => hfirst, fun h => .inl (hnone h)⟩, List.forall_mem_nil _⟩
  | cons c text ih =>
    have hsize := size_cons c text
    obtain ⟨row, more, hmore, hrow, hstarts⟩ := rowsFrom_char hcontents hs hoffset fun s' hs' hcolumn' =>
      ih hs' hcolumn' (by omega)
    exact ⟨row, more, hmore, hrow.of_filled hs hcolumn (by omega) (Nat.le_add_right _ _),
      fun r hr => Nat.le_trans (Nat.le_add_right _ _) (hstarts r hr)⟩

end Behind

end Generator

/-! ### Places -/

/-- The line of a place is found, whatever line is tried first. -/
def Found (tables : List LineOffsetTable) (loc line : Nat) : Prop :=
  findLine (Generator.starts tables) loc = line ∧ ∀ hint, findLineWithHint (Generator.starts tables) loc hint = line

/-- Before a place there is only ASCII on its line, or a character that is not ASCII stands right in front of it. -/
def Near (line : List Char) : Prop := ∀ c, line.getLast? = some c → c.toNat ≤ 0x7F → Ascii line

/-- The table has the line and the column of a character. -/
def Placed (before : List Char) (c : Char) (after : List Char) : Prop :=
  Returns (generate (utf8 (before ++ c :: after))) fun tables =>
    Found tables (size before) (terminators before (some c)) ∧
      originalColumn tables (size before) (terminators before (some c)) = .ok (units (lastLine before (some c)) : Int)

section Column
variable {line : List Char} {c : Char} {s : Generator} {row : LineOffsetTable} {later : Nat}

/-- The column at so many bytes behind the start of a line -/
def columnAt (row : LineOffsetTable) (column : Nat) : Checked Int :=
  if i32 row.byteOffsetToFirstNonAscii ≤ column ∧ row.columnsForNonAscii ≠ [] then
    indexAt row.columnsForNonAscii (u32 (column - row.byteOffsetToFirstNonAscii))
  else return column

/-- What has been stored of a line is read from its row. -/
theorem columnAt_stored (hrow : Generator.Kept s later row) {column : Nat} {x : Int} (hfits : column < 2147483648)
    (hfirst : s.byteOffsetToFirstNonAscii ≤ column)
    (hget : s.columnsForNonAscii[column - s.byteOffsetToFirstNonAscii]? = some x) : columnAt row column = .ok x := by
  obtain ⟨hlt, -⟩ := List.getElem?_eq_some_iff.1 hget
  have hne : s.columnsForNonAscii ≠ [] := List.ne_nil_of_length_pos (by omega)
  obtain ⟨rest, hrest⟩ := hrow.columns
  have hcast : i32 s.byteOffsetToFirstNonAscii = s.byteOffsetToFirstNonAscii :=
    i32_of_range (by unfold Int32Range; omega)
  have hnonempty : row.columnsForNonAscii ≠ [] := by
    rw [← hrest]
    exact List.append_ne_nil_of_left_ne_nil hne _
  unfold columnAt
  rw [hrow.first hne, hcast, if_pos ⟨by omega, hnonempty⟩, u32_sub hfirst (by show _ < 4294967296; omega)]
  unfold indexAt
  rw [← hrest, List.getElem?_append_left hlt, hget]

theorem columnAt_exact (hfilled : Generator.Filled line c s) (hrow : Generator.Kept s later row)
    (hlater : s.lineByteOffset + size line < later) (hfits : size line < 2147483648) :
    columnAt row (size line) = .ok (units line : Int) ↔ Near line := by
  rcases hfilled with ⟨hascii, -, hcolumns⟩ | ⟨hascii, -, hcolumns, hfirst, -⟩ |
    ⟨front, d, columns, hsplit, hwide, hfirst, hlength, hlast, hfilled, -⟩
  · refine iff_of_true ?_ fun _ _ _ => hascii
    rw [units_ascii hascii]
    apply if_neg
    intro hand
    rcases hrow.behind hcolumns with hnil | ⟨hbehind, hrange⟩
    · exact hand.2 hnil
    · have hcast : i32 row.byteOffsetToFirstNonAscii = row.byteOffsetToFirstNonAscii :=
        i32_of_range (by unfold Int32Range; omega)
      have := hand.1
      omega
  · refine iff_of_true ?_ fun _ _ _ => hascii
    apply columnAt_stored hrow hfits (Nat.le_of_eq hfirst)
    rw [hfirst, Nat.sub_self, hcolumns]
    rfl
  · have hsize : size line = size front + size [d] := by rw [hsplit, size_append]
    have hunits : units line = units front + units [d] := by rw [hsplit, units_append]
    have hend : line.getLast? = some d := by rw [hsplit, List.getLast?_concat]
    have hpos := size_pos d
    rcases Nat.lt_or_ge 0x7F d.toNat with hd | hd
    · refine iff_of_true ?_ fun e he hle => ?_
      · have := size_single_wide hd
        apply columnAt_stored hrow hfits (by omega)
        rw [hfilled, List.getElem?_append_right (by omega), List.getElem?_replicate, if_pos (by omega)]
      · obtain rfl : d = e := Option.some.inj (hend.symm.trans he)
        omega
    · -- the character in front has one byte: its column is read
      have hone := size_single_ascii hd
      refine iff_of_false ?_ fun hnear => hwide (hnear d hend hd)
      have hstored : columnAt row (size line) = .ok (units front : Int) := by
        apply columnAt_stored hrow hfits (by omega)
        have hindex : size line - s.byteOffsetToFirstNonAscii = columns.length - 1 := by omega
        rw [hfilled, hindex, List.getElem?_append_left (by omega), ← List.getLast?_eq_getElem?, hlast]
      rw [hstored]
      intro heq
      have := Except.ok.inj heq
      omega

end Column

/-- A text has no character that is cut off. -/
theorem whole_utf8 (text : List Char) : Whole (utf8 text) := by
  induction text with
  | nil => exact .nil
  | cons c text ih =>
    obtain ⟨b0, bytes, hbytes, hlength⟩ := encodeChar_length c
    have hcons : utf8 (c :: text) = b0 :: (bytes ++ utf8 text) := by rw [utf8_cons, hbytes]; rfl
    rw [hcons]
    apply Whole.cons
    · rw [hlength, List.length_cons, List.length_append]
      omega
    · rw [hlength, List.drop_succ_cons, List.drop_left]
      exact ih

section Place
variable {before after : List Char} {c : Char} (hfits : size (before ++ c :: after) < 2147483648)
include hfits

/-- The table that is generated: the row of a place is the one of its line. -/
theorem generate_place :
    ∃ tables row s, generate (utf8 (before ++ c :: after)) = .ok tables ∧
      (Generator.starts tables).Pairwise (· < ·) ∧
      tables[terminators before (some c)]? = some row ∧
      (∀ next, tables[terminators before (some c) + 1]? = some next → size before < next.byteOffsetToStartOfLine) ∧
      row.byteOffsetToStartOfLine + size (lastLine before (some c)) = size before ∧
      s.lineByteOffset = row.byteOffsetToStartOfLine ∧
      Generator.Filled (lastLine before (some c)) c s ∧ Generator.Kept s (size before + size [c]) row := by
  have hsize := size_append before (c :: after)
  have hcons := size_cons c after
  have hpos := size_pos c
  obtain ⟨tables, htables, hincreasing, -⟩ :=
    totals_of_whole hfits (whole_utf8 (before ++ c :: after))
  have hread := Generator.read_text hfits (size (before ++ c :: after)) 0
    (before ++ c :: after) .init Generator.reading_init (Nat.zero_add _) le_rfl
  have hat : Generator.At before (some c) (Generator.readText .init 0 before (some c)) :=
    Generator.at_readText (Generator.at_init _) (by rw [List.nil_append]; omega)
  rw [Generator.readText_append, Nat.zero_add] at hread
  have hgenerate : generate (utf8 (before ++ c :: after)) =
      .ok (Generator.finish (utf8 (before ++ c :: after))
        (Generator.readText (Generator.readText .init 0 before (some c)) (size before) (c :: after) none)) := by
    unfold generate
    exact congrArg (· >>= fun s => Except.ok (Generator.finish (utf8 (before ++ c :: after)) s)) hread
  have hrows := Generator.rowsFrom_char hfits hat.reading (c := c)
    hsize.symm fun s' hs' hcolumn' => Generator.rowsFrom_line hfits hs' hcolumn' (by
      show _ = size (before ++ c :: after)
      omega)
  generalize Generator.readText .init 0 before (some c) = s at hat hgenerate hrows
  obtain ⟨row, more, hfinish, hrow, hstarts⟩ := hrows
  rw [hgenerate, hfinish] at htables
  have htables := Except.ok.inj htables
  have hstart := hat.start
  have hprepared := ((Generator.prepared s c.toNat (size before)).fillColumns).lineByteOffset
  have hown := hrow.start
  refine ⟨tables, row, (s.prepare c.toNat (size before)).fillColumns (size before), ?_, hincreasing, ?_, ?_, ?_, ?_, ?_, hrow⟩
  · rw [hgenerate, hfinish, htables]
  · rw [← htables, ← hat.lines, List.getElem?_append_right le_rfl, Nat.sub_self]
    rfl
  · intro next hnext
    rw [← htables, ← hat.lines, List.getElem?_append_right (Nat.le_succ _), Nat.succ_sub (Nat.le_refl _),
      Nat.sub_self] at hnext
    have := hstarts next (List.mem_of_getElem? (i := 0) hnext)
    omega
  · rw [hown, hprepared]
    exact hstart
  · exact hown.symm
  · exact hat.filled (by omega)

end Place

theorem starts_getElem? {tables : List LineOffsetTable} {n start : Nat} (h : (Generator.starts tables)[n]? = some start) :
    ∃ row, tables[n]? = some row ∧ row.byteOffsetToStartOfLine = start := by
  unfold Generator.starts at h
  rw [List.getElem?_map, Option.map_eq_some_iff] at h
  exact h

/-- The line of a place is always found. Its column is right exactly where no ASCII character in front of it follows one
on its line that is not ASCII. -/
theorem placed_exact (before : List Char) (c : Char) (after : List Char)
    (hfits : size (before ++ c :: after) < 2147483648) :
    (Returns (generate (utf8 (before ++ c :: after))) fun tables =>
      Found tables (size before) (terminators before (some c))) ∧
    (Placed before c after ↔ Near (lastLine before (some c))) := by
  obtain ⟨tables, row, s, htables, hincreasing, hrow, hnext, hstart, hs, hfilled, hkept⟩ := generate_place hfits
  have hsize := size_append before (c :: after)
  have hpos := size_pos c
  have honLine : OnLine (Generator.starts tables) (size before) (terminators before (some c)) := by
    refine ⟨hincreasing, ⟨row.byteOffsetToStartOfLine, ?_, by omega⟩, ?_, by omega⟩
    · unfold Generator.starts
      rw [List.getElem?_map, hrow]
      rfl
    · intro start hget
      obtain ⟨next, hrow', rfl⟩ := starts_getElem? hget
      exact hnext next hrow'
  have hfound : Found tables (size before) (terminators before (some c)) :=
    ⟨honLine.findLine_eq, honLine.findLineWithHint_eq⟩
  have hcolumn : originalColumn tables (size before) (terminators before (some c)) =
      columnAt row (size (lastLine before (some c))) := by
    have hcast : i32 (row.byteOffsetToStartOfLine : Int) = row.byteOffsetToStartOfLine :=
      i32_of_range (by unfold Int32Range; omega)
    have hdistance : i32 ((size before : Int) - row.byteOffsetToStartOfLine) = size (lastLine before (some c)) :=
      (congrArg i32 (by omega)).trans (i32_of_range (n := size (lastLine before (some c))) (by unfold Int32Range; omega))
    have hindex : indexAt tables (terminators before (some c)) = .ok row := by
      unfold indexAt
      rw [hrow]
    unfold originalColumn columnAt
    simp only [hindex, bind, Except.bind, hcast, hdistance]
  have hexact := columnAt_exact hfilled hkept (by omega) (by omega)
  rw [← hcolumn] at hexact
  refine ⟨⟨tables, htables, hfound⟩, ?_⟩
  rw [← hexact]
  constructor
  · intro h
    obtain ⟨tables', htables', -, hright⟩ := h
    rw [htables, Except.ok.injEq] at htables'
    rw [htables']
    exact hright
  · intro hright
    exact ⟨tables, htables, hfound, hright⟩

theorem placed_exact_wide : Placed ['a', 'é'] '\u2028' [] ∧ Near (lastLine ['a', 'é'] (some '\u2028')) := by
  have hnear : Near (lastLine ['a', 'é'] (some '\u2028')) := by
    intro c hc hascii
    cases hc
    exact absurd hascii (by decide)
  exact ⟨(placed_exact ['a', 'é'] '\u2028' [] (by decide)).2.2 hnear, hnear⟩

/-- The `b` in `éab` has two characters in front of it. -/
theorem placed_behind : ¬ ∀ (before : List Char) (c : Char) (after : List Char),
    size (before ++ c :: after) < 2147483648 → Placed before c after := by
  intro h
  obtain ⟨tables, htables, -, hcolumn⟩ := h ['é', 'a'] 'b' [] (by decide)
  have hgenerate : generate (utf8 ['é', 'a', 'b']) = .ok [⟨[0, 0, 1, 1, 2, 3], 0, 0⟩] := by decide +kernel
  rw [show ['é', 'a'] ++ 'b' :: [] = ['é', 'a', 'b'] from rfl, hgenerate, Except.ok.injEq] at htables
  rw [← htables] at hcolumn
  exact absurd hcolumn (by decide)

end LineOffsetTable
end Funbun.SourceMap
