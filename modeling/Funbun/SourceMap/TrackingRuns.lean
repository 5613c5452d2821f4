import Funbun.SourceMap.TrackingProofs

/-! What the builder has counted when the code is printed.

The code is printed in pieces, and the builder is called behind each of them. No piece ends between the two characters of a
Windows line break. -/
namespace Funbun.SourceMap
open Library Strings LineOffsetTable.Generator

/-! ### Lines of a text in two parts -/

theorem terminators_append (a b : List Char) (next : Option Char) :
    terminators (a ++ b) next = terminators a (b.head?.or next) + terminators b next := by
  induction a with
  | nil => exact (Nat.zero_add _).symm
  | cons c a ih =>
    have hhead : (a ++ b).head?.or next = a.head?.or (b.head?.or next) := by cases a <;> rfl
    rw [List.cons_append, terminators, terminators, ih, hhead, Nat.add_assoc]

theorem lastLine_of_none {text : List Char} {next : Option Char} (h : terminators text next = 0) :
    lastLine text next = text := by
  cases text with
  | nil => rfl
  | cons c text => exact if_pos h

theorem lastLine_append (a b : List Char) (next : Option Char) :
    lastLine (a ++ b) next = if terminators b next = 0 then lastLine a (b.head?.or next) ++ b else lastLine b next := by
  induction b using List.reverseRecOn generalizing next with
  | nil =>
    rw [List.append_nil, List.append_nil]
    exact (if_pos rfl).symm
  | append_singleton b c ih =>
    rw [← List.append_assoc, lastLine_concat, ih, terminators_concat, lastLine_concat, head?_append_single]
    by_cases hc : endsLine c next = true
    · simp [hc]
    · by_cases hb : terminators b (some c) = 0
      · simp [hc, hb]
      · simp [hc, hb]

/-- A text without a line break has no line feed. -/
theorem not_mem_of_none {text : List Char} {next : Option Char} (h : terminators text next = 0) : '\n' ∉ text := by
  induction text with
  | nil => exact List.not_mem_nil
  | cons c text ih =>
    rw [terminators] at h
    rw [List.mem_cons, not_or]
    refine ⟨fun hc => ?_, ih (by omega)⟩
    subst hc
    rw [if_pos (by rfl)] at h
    omega

namespace Tracker

theorem mem_of_feedAhead {rest : List Char} (h : feedAhead rest = true) : '\n' ∈ rest := by
  unfold feedAhead at h
  split at h
  · rw [Bool.and_eq_true, beq_iff_eq] at h
    rw [h.2]
    simp
  · exact absurd h Bool.false_ne_true

/-! ### What is counted -/

/-- The line breaks that are counted in a piece -/
def separators : List Char → Nat
  | [] => 0
  | c :: rest => (if isLineBreak c.toNat = true ∧ ¬(c = '\r' ∧ feedAhead rest = true) then 1 else 0) + separators rest

/-- The Windows line breaks of a piece that count twice: no line feed follows them there. -/
def extra : List Char → Nat
  | [] => 0
  | c :: rest => (if c = '\r' ∧ rest.head? = some '\n' ∧ feedAhead rest = false then 1 else 0) + extra rest

/-- The carriage returns of a piece that do not count: the next character but one is a line feed. -/
def missed : List Char → Nat
  | [] => 0
  | c :: rest => (if c = '\r' ∧ rest.head? ≠ some '\n' ∧ feedAhead rest = true then 1 else 0) + missed rest

/-- Whether a piece ends between the two characters of a Windows line break -/
def Cut (piece : List Char) (next : Option Char) : Prop := piece.getLast? = some '\r' ∧ next = some '\n'

theorem not_cut_tail {c : Char} {rest : List Char} {next : Option Char} (h : ¬Cut (c :: rest) next) : ¬Cut rest next := by
  intro hcut
  apply h
  refine ⟨?_, hcut.2⟩
  rw [List.getLast?_cons, hcut.1]
  rfl

theorem endsLine_return (next : Option Char) : endsLine '\r' next = (next != some '\n') := by
  cases next <;> rfl

theorem endsLine_other {c : Char} (h : c ≠ '\r') (next : Option Char) : endsLine c next = isLineBreak c.toNat := by
  have hne : (c.toNat == 0x0D) = false := beq_false_of_ne fun heq => h ((toNat_eq_iff c 13 (by decide)).1 heq)
  rw [endsLine_eq, hne, Bool.false_and, Bool.not_false, Bool.and_true]

/-- Up to what counts twice and what does not count, the line breaks are counted. -/
theorem separators_balance (rest : List Char) (next : Option Char) (hcut : ¬Cut rest next) :
    separators rest + missed rest = terminators rest next + extra rest := by
  induction rest with
  | nil => rfl
  | cons c rest ih =>
    have ih := ih (not_cut_tail hcut)
    have hone : (if isLineBreak c.toNat = true ∧ ¬(c = '\r' ∧ feedAhead rest = true) then 1 else 0) +
          (if c = '\r' ∧ rest.head? ≠ some '\n' ∧ feedAhead rest = true then 1 else 0) =
        (if endsLine c (rest.head?.or next) = true then 1 else 0) +
          (if c = '\r' ∧ rest.head? = some '\n' ∧ feedAhead rest = false then 1 else 0) := by
      by_cases hc : c = '\r'
      · subst hc
        have hbreak : isLineBreak 13 = true := by decide
        have hends : endsLine '\r' (rest.head?.or next) = (rest.head? != some '\n') := by
          rw [endsLine_return]
          cases rest with
          | nil =>
            have hnext : next ≠ some '\n' := fun h => hcut ⟨rfl, h⟩
            rw [List.head?_nil, Option.none_or, bne_iff_ne.2 hnext]
            rfl
          | cons x rest => rfl
        rw [hends]
        by_cases hhead : rest.head? = some '\n'
        · by_cases hfeed : feedAhead rest = true
          · simp [hhead, hfeed]
          · simp [hbreak, hhead, hfeed]
        · by_cases hfeed : feedAhead rest = true
          · simp [hhead, hfeed]
          · simp [hbreak, hhead, hfeed]
      · rw [endsLine_other hc]
        simp [hc]
    rw [separators, missed, terminators, extra]
    omega

theorem separators_le (rest : List Char) : separators rest ≤ size rest := by
  induction rest with
  | nil => exact Nat.le_refl _
  | cons c rest ih =>
    have hcons := size_cons c rest
    have hpos := size_pos c
    rw [separators]
    split
    · omega
    · omega

/-! ### What the builder has -/

theorem generatedLine_newline (b : Builder) :
    (b.step .newline).prevState.generatedLine = i32 (b.prevState.generatedLine + 1) := by
  show (b.appendLineSeparator).prevState.generatedLine = _
  unfold Builder.appendLineSeparator
  simp only
  split <;> rfl

theorem generatedLine_mapping (b : Builder) (line column : Int) :
    (b.step (.mapping line column)).prevState.generatedLine = b.prevState.generatedLine := by
  show (b.addSourceMapping line column).prevState.generatedLine = _
  unfold Builder.addSourceMapping
  simp only
  split <;> rfl

theorem generatedColumn_mapping (b : Builder) (line column : Int) :
    (b.step (.mapping line column)).generatedColumn = b.generatedColumn := by
  show (b.addSourceMapping line column).generatedColumn = _
  unfold Builder.addSourceMapping
  simp only
  split <;> rfl

theorem generatedLine_countText (rest : List Char) (b : Builder) (hpos : 0 ≤ b.prevState.generatedLine)
    (hfits : b.prevState.generatedLine + size rest < 2147483648) :
    (countText b rest).prevState.generatedLine = b.prevState.generatedLine + separators rest := by
  induction rest generalizing b with
  | nil => exact (Int.add_zero _).symm
  | cons c rest ih =>
    have hcons := size_cons c rest
    have hsize := size_pos c
    have hchar : (countChar b c rest).prevState.generatedLine = b.prevState.generatedLine +
        (if isLineBreak c.toNat = true ∧ ¬(c = '\r' ∧ feedAhead rest = true) then 1 else 0 : Nat) := by
      unfold countChar
      by_cases hbreak : isLineBreak c.toNat = true
      · by_cases hpass : c = '\r' ∧ feedAhead rest = true
        · rw [if_pos hbreak, if_pos hpass, if_neg fun h => h.2 hpass]
          exact (Int.add_zero _).symm
        · rw [if_pos hbreak, if_neg hpass, if_pos ⟨hbreak, hpass⟩, generatedLine_newline]
          exact i32_of_range (by unfold Int32Range; omega)
      · rw [if_neg hbreak, if_neg fun h => hbreak h.1]
        exact (Int.add_zero _).symm
    have hle : (if isLineBreak c.toNat = true ∧ ¬(c = '\r' ∧ feedAhead rest = true) then 1 else 0 : Nat) ≤ 1 := by
      split <;> omega
    rw [countText, ih _ (by omega) (by omega), hchar, separators]
    omega

/-- The column behind a piece: it goes on, or starts anew behind the last line break. -/
theorem generatedColumn_countText (rest : List Char) (next : Option Char) (b : Builder) (hcut : ¬Cut rest next)
    (hpos : 0 ≤ b.generatedColumn) (hfits : b.generatedColumn + size rest < 2147483648) :
    (countText b rest).generatedColumn =
      if terminators rest next = 0 then b.generatedColumn + units rest else (units (lastLine rest next) : Int) := by
  induction rest generalizing b with
  | nil => exact (Int.add_zero _).symm
  | cons c rest ih =>
    have hcons := size_cons c rest
    have hunitsCons := units_cons c rest
    have hunits := units_le_size [c]
    have hnewline : (b.step .newline).generatedColumn = 0 := rfl
    have htext : (b.step (.text (units [c]))).generatedColumn = b.generatedColumn + units [c] :=
      i32_of_range (by unfold Int32Range; omega)
    have hchar : 0 ≤ (countChar b c rest).generatedColumn ∧
        (countChar b c rest).generatedColumn + size rest < 2147483648 := by
      unfold countChar
      split
      · split
        · omega
        · omega
      · omega
    rw [countText, ih _ (not_cut_tail hcut) hchar.1 hchar.2]
    by_cases hrest : terminators rest next = 0
    · have hfeed : '\n' ∉ rest := not_mem_of_none hrest
      rw [if_pos hrest]
      by_cases hbreak : isLineBreak c.toNat = true
      · -- the character ends its line: a carriage return is not passed over, as no line feed follows
        have hpass : ¬(c = '\r' ∧ feedAhead rest = true) := fun h => hfeed (mem_of_feedAhead h.2)
        have hends : endsLine c (rest.head?.or next) = true := by
          by_cases hc : c = '\r'
          · subst hc
            rw [endsLine_return, bne_iff_ne]
            intro hnext
            cases rest with
            | nil => exact hcut ⟨rfl, hnext⟩
            | cons x rest =>
              obtain rfl : x = '\n' := Option.some.inj hnext
              exact hfeed List.mem_cons_self
          · rw [endsLine_other hc]
            exact hbreak
        have hcount : terminators (c :: rest) next ≠ 0 := by
          rw [terminators, if_pos hends]
          omega
        rw [if_neg hcount, lastLine, if_neg hcount, lastLine_of_none hrest]
        unfold countChar
        rw [if_pos hbreak, if_neg hpass, hnewline, Int.zero_add]
      · have hends : ¬endsLine c (rest.head?.or next) = true := by
          rw [endsLine_eq, Bool.and_eq_true]
          exact fun h => hbreak h.1
        have hcount : terminators (c :: rest) next = 0 := by
          rw [terminators, if_neg hends, hrest]
        rw [if_pos hcount]
        unfold countChar
        rw [if_neg hbreak, htext]
        omega
    · have hcount : terminators (c :: rest) next ≠ 0 := by
        rw [terminators]
        omega
      rw [if_neg hrest, if_neg hcount, lastLine, if_neg hcount]

/-! ### Runs -/

/-- A piece of code, and the place of a mapping if one is added behind it -/
abbrev Turn := List Char × Option (Int × Int)

def text (turns : List Turn) : List Char := turns.flatMap Prod.fst

/-- The calls, `done` being what has been printed before -/
def calls (done : List Char) : List Turn → List (List UInt8 × Option (Int × Int))
  | [] => []
  | (piece, place) :: turns => (utf8 (done ++ piece), place) :: calls (done ++ piece) turns

/-- No piece ends between the two characters of a Windows line break. -/
def Uncut : List Turn → Prop
  | [] => True
  | (piece, _) :: turns => ¬Cut piece (text turns).head? ∧ Uncut turns

/-- As many Windows line breaks count twice as carriage returns do not count. -/
def Balanced (turns : List Turn) : Prop := (turns.map fun t => extra t.1).sum = (turns.map fun t => missed t.1).sum

/-- The line and the column at the end are those of the text. -/
def Tracked (coverLines : Bool) (turns : List Turn) : Prop :=
  Returns (run ⟨.init coverLines, 0⟩ (calls [] turns)) fun t =>
    t.builder.prevState.generatedLine = terminators (text turns) none ∧
      t.builder.generatedColumn = units (lastLine (text turns) none)

/-- What holds when some code has been printed, `lines` line breaks having been counted -/
structure Follows (done : List Char) (next : Option Char) (lines : Nat) (b : Builder) : Prop where
  line : b.prevState.generatedLine = lines
  column : b.generatedColumn = units (lastLine done next)
  lines_le : lines ≤ size done

theorem units_lastLine_le (text : List Char) (next : Option Char) : units (lastLine text next) ≤ size text := by
  obtain ⟨front, hfront⟩ := exists_lastLine text next
  have hsize := congrArg size hfront
  rw [size_append] at hsize
  have := units_le_size (lastLine text next)
  omega

theorem Follows.countText {done piece : List Char} {next : Option Char} {lines : Nat} {b : Builder}
    (h : Follows done (piece.head?.or next) lines b) (hcut : ¬Cut piece next)
    (hfits : size (done ++ piece) < 2147483648) :
    Follows (done ++ piece) next (lines + separators piece) (countText b piece) := by
  have hsize := size_append done piece
  have hline := h.line
  have hcolumn := h.column
  have hle := h.lines_le
  have hunits := units_lastLine_le done (piece.head?.or next)
  refine ⟨?_, ?_, ?_⟩
  · rw [generatedLine_countText piece b (by omega) (by omega), hline, Nat.cast_add]
  · rw [generatedColumn_countText piece next b hcut (by omega) (by omega), lastLine_append, hcolumn]
    split
    · rw [units_append, Nat.cast_add]
    · rfl
  · have := separators_le piece
    omega

theorem Follows.mapping {done : List Char} {next : Option Char} {lines : Nat} {b : Builder} (h : Follows done next lines b)
    (line column : Int) : Follows done next lines (b.step (.mapping line column)) :=
  ⟨(generatedLine_mapping b line column).trans h.line, (generatedColumn_mapping b line column).trans h.column, h.lines_le⟩

theorem run_calls {turns : List Turn} {done : List Char} {lines : Nat} {b : Builder}
    (h : Follows done (text turns).head? lines b) (hcut : Uncut turns) (hfits : size (done ++ text turns) < 2147483648) :
    Returns (run ⟨b, size done⟩ (calls done turns)) fun t =>
      Follows (done ++ text turns) none (lines + (turns.map fun t => separators t.1).sum) t.builder := by
  induction turns generalizing done lines b with
  | nil =>
    refine .ok ?_
    rw [show text [] = [] from rfl, List.append_nil]
    exact h
  | cons turn turns ih =>
    obtain ⟨piece, place⟩ := turn
    have htext : text ((piece, place) :: turns) = piece ++ text turns := rfl
    rw [htext] at h hfits
    rw [List.head?_append] at h
    rw [htext, ← List.append_assoc]
    rw [← List.append_assoc] at hfits
    have hsize := size_append (done ++ piece) (text turns)
    have hcolumn : Int32Range b.generatedColumn := by
      have := h.column
      have := units_lastLine_le done (piece.head?.or (text turns).head?)
      have := size_append done piece
      unfold Int32Range
      omega
    have hcounted := h.countText hcut.1 (by omega)
    rw [List.map_cons, List.sum_cons, ← Nat.add_assoc, calls, run, update_text b (by omega) hcolumn]
    cases place with
    | none => exact ih hcounted hcut.2 hfits
    | some place => exact ih (hcounted.mapping place.1 place.2) hcut.2 hfits

theorem run_balance {turns : List Turn} (hcut : Uncut turns) :
    (turns.map fun t => separators t.1).sum + (turns.map fun t => missed t.1).sum =
      terminators (text turns) none + (turns.map fun t => extra t.1).sum := by
  induction turns with
  | nil => rfl
  | cons turn turns ih =>
    obtain ⟨piece, place⟩ := turn
    have hpiece := separators_balance piece (text turns).head? hcut.1
    have hrest := ih hcut.2
    have htext : terminators (text ((piece, place) :: turns)) none =
        terminators piece (text turns).head? + terminators (text turns) none := by
      show terminators (piece ++ text turns) none = _
      rw [terminators_append, Option.or_none]
    simp only [List.map_cons, List.sum_cons]
    omega

/-- The column at the end is always right. The line is right exactly where what counts twice makes up for what does not
count. -/
theorem tracked_exact (coverLines : Bool) (turns : List Turn) (hcut : Uncut turns)
    (hfits : size (text turns) < 2147483648) :
    (Returns (run ⟨.init coverLines, 0⟩ (calls [] turns)) fun t =>
      t.builder.generatedColumn = units (lastLine (text turns) none)) ∧
    (Tracked coverLines turns ↔ Balanced turns) := by
  obtain ⟨t, hrun, hfollows⟩ := @run_calls _ [] 0 (.init coverLines) ⟨rfl, rfl, Nat.le_refl _⟩ hcut
    hfits
  have hline := hfollows.line
  rw [Nat.zero_add] at hline
  have hbalance := run_balance hcut
  refine ⟨⟨t, hrun, hfollows.column⟩, ?_⟩
  unfold Balanced
  constructor
  · intro h
    obtain ⟨t', hrun', hline', -⟩ := h
    obtain rfl := Except.ok.inj (hrun.symm.trans hrun')
    omega
  · intro hbalanced
    exact ⟨t, hrun, by omega, hfollows.column⟩

theorem tracked_exact_lines :
    Tracked true [(['a', '\r', '\n', '\n'], some (0, 0)), (['é', '\u2028'], none)] ∧
      Balanced [(['a', '\r', '\n', '\n'], some (0, 0)), (['é', '\u2028'], none)] := by
  have hcut : Uncut [(['a', '\r', '\n', '\n'], some (0, 0)), (['é', '\u2028'], none)] :=
    ⟨fun h => absurd h.1 (by decide), fun h => absurd h.1 (by decide), trivial⟩
  have hbalanced : Balanced [(['a', '\r', '\n', '\n'], some (0, 0)), (['é', '\u2028'], none)] := by
    unfold Balanced
    decide
  exact ⟨(tracked_exact true _ hcut (by decide)).2.2 hbalanced, hbalanced⟩

/-- A Windows line break at the end counts twice. -/
theorem tracked_twice : ¬ ∀ (coverLines : Bool) (turns : List Turn), Uncut turns → size (text turns) < 2147483648 →
    Tracked coverLines turns := by
  intro h
  obtain ⟨t, hrun, hline, -⟩ := h false [(['\r', '\n'], none)] ⟨fun h => absurd h.1 (by decide), trivial⟩ (by decide)
  have hlines : (run ⟨.init false, 0⟩ (calls [] [(['\r', '\n'], none)])).toOption.map
      (fun t => t.builder.prevState.generatedLine) = some 2 := by decide +kernel
  rw [hrun, Except.toOption, Option.map_some, Option.some.injEq, hline] at hlines
  exact absurd hlines (by decide)

end Tracker
end Funbun.SourceMap
