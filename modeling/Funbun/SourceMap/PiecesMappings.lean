import Funbun.SourceMap.Join
import Funbun.SourceMap.PiecesProofs

/-! The mappings of a text whose columns have been written anew.

While the entries are read, the number of shifts that have been crossed is the greatest number that can be given to the
mappings so far: `Midway`. -/
namespace Funbun.SourceMap
open Library

/-! ### What is asked -/

namespace SourceMapShifts

/-- By how much a line has grown up to here -/
def delta (s : SourceMapShifts) : Int := s.after.columns - s.before.columns

/-- By how much the last shift on its line in front of it moves a place -/
def offset (shifts : List SourceMapShifts) (place : LineColumnOffset) : Int :=
  match (shifts.filter fun s => s.before.comesBefore place && s.before.lines == place.lines).getLast? with
  | some s => s.delta
  | none => 0

/-- Shifts as they are collected: in order, each on one line -/
structure Collected (shifts : List SourceMapShifts) : Prop where
  sorted : shifts.Pairwise fun a b => b.before.comesBefore a.before = false
  lines : ∀ s ∈ shifts, s.before.lines = s.after.lines
  places : ∀ s ∈ shifts, s.before.InBounds ∧ s.after.InBounds

end SourceMapShifts
open SourceMapShifts

def NamedMapping.place (m : NamedMapping) : LineColumnOffset := m.state.generated

def NamedMapping.moveBy (m : NamedMapping) (columns : Int) : NamedMapping :=
  {m with state := {m.state with generatedColumn := m.state.generatedColumn + columns}}

/-- The numbers of the texts are places, and no sum that is formed of a column and two shifts is too great for an `i32`. -/
structure Entry.Fit (shifts : List SourceMapShifts) (entries : List Entry) : Prop where
  valid : ∀ e ∈ entries, e.Valid
  length : (textOf entries).length < 2147483648
  columns : ∀ m ∈ mappingsOf .zero 0 entries, 0 ≤ m.state.generatedColumn ∧ m.state.generatedColumn < 2147483648
  sums : ∀ w, .segment w ∈ entries → ∀ d ∈ 0 :: shifts.map delta, ∀ d' ∈ 0 :: shifts.map delta,
    Vlq.InRange (Vlq.valueOf w.generatedColumn + d - d')

/-- The map says of every mapping what it said before, moved by the last shift on its line in front of it. -/
def Substituted (jsonPrefix suffix : List UInt8) (shifts : List SourceMapShifts) (entries : List Entry) : Prop :=
  Returns (SourceMapPieces.finalize ⟨jsonPrefix, textOf entries, suffix⟩ shifts) fun out =>
    ∃ text, out = jsonPrefix ++ text ++ suffix ∧
      Decodes text ((mappingsOf .zero 0 entries).map fun m => m.moveBy (offset shifts m.place))

/-! ### Shifts that have been crossed -/

/-- Whether a shift can be crossed at a mapping -/
def behind (s : SourceMapShifts) (place : LineColumnOffset) : Bool := s.before.comesBefore place

/-- The offset on a line behind shift `k` -/
def inForce (shifts : List SourceMapShifts) (k : Nat) (line : Int) : Int :=
  if k = 0 then 0 else ((shifts[k]?).map fun s => if s.before.lines = line then s.delta else 0).getD 0

/-- `k` is the greatest number such that the first `k` shifts behind the start can be given to mappings of their own, in
order, each lying in front of its mapping. -/
def Reached (shifts : List SourceMapShifts) (places : List LineColumnOffset) (k : Nat) : Prop :=
  CrossingOff.Given behind shifts.tail places k ∧ ∀ k', CrossingOff.Given behind shifts.tail places k' → k' ≤ k

/-- Each mapping is reached in time: the shift that has been reached there moves it as the last one in front of it would. -/
def InTime (shifts : List SourceMapShifts) (mappings : List NamedMapping) : Prop :=
  ∀ before m after, mappings = before ++ m :: after →
    ∀ k, Reached shifts (before.map NamedMapping.place ++ [m.place]) k →
      inForce shifts k m.state.generatedLine = offset shifts m.place

/-! ### What the text that is joined says -/

namespace SourceMapPieces
open Finalizer

def crossedAt (shifts : List SourceMapShifts) (places : List LineColumnOffset) : Nat :=
  CrossingOff.crossed behind shifts.tail places

/-- The mappings, each moved by the shift that has been reached there -/
def corrected (shifts : List SourceMapShifts) (before : List LineColumnOffset) : List NamedMapping → List NamedMapping
  | [] => []
  | m :: mappings =>
    m.moveBy (inForce shifts (crossedAt shifts (before ++ [m.place])) m.state.generatedLine) ::
      corrected shifts (before ++ [m.place]) mappings

theorem moveBy_inj {m : NamedMapping} {a b : Int} : m.moveBy a = m.moveBy b ↔ a = b := by
  constructor
  · intro h
    have := congrArg (fun m : NamedMapping => m.state.generatedColumn) h
    simp only [NamedMapping.moveBy] at this
    omega
  · intro h
    rw [h]

variable {shifts : List SourceMapShifts} {prevDelta : Int} {entries : List Entry}

theorem corrected_eq_iff {mappings : List NamedMapping} {before : List LineColumnOffset} :
    corrected shifts before mappings = mappings.map (fun m => m.moveBy (offset shifts m.place)) ↔
      ∀ front m after, mappings = front ++ m :: after →
        inForce shifts (crossedAt shifts (before ++ (front.map NamedMapping.place ++ [m.place]))) m.state.generatedLine =
          offset shifts m.place := by
  induction mappings generalizing before with
  | nil => exact ⟨fun _ front m after h => by simp at h, fun _ => rfl⟩
  | cons m mappings ih =>
    rw [corrected, List.map_cons, List.cons.injEq, moveBy_inj, ih]
    constructor
    · intro h front m' after heq
      cases front with
      | nil =>
        obtain ⟨rfl, rfl⟩ := List.cons.inj heq
        exact h.1
      | cons f front =>
        obtain ⟨rfl, rfl⟩ := List.cons.inj heq
        have := h.2 front m' after rfl
        rw [List.append_assoc] at this
        exact this
    · intro h
      refine ⟨h [] m mappings rfl, fun front m' after heq => ?_⟩
      rw [List.append_assoc]
      exact h (m :: front) m' after (congrArg (m :: ·) heq)

theorem inTime_iff {mappings : List NamedMapping} :
    InTime shifts mappings ↔
      corrected shifts [] mappings = mappings.map (fun m => m.moveBy (offset shifts m.place)) := by
  rw [corrected_eq_iff]
  constructor
  · intro h front m after heq
    rw [List.nil_append]
    exact h front m after heq _ (CrossingOff.eq_crossed_iff.1 rfl)
  · intro h front m after heq k hk
    have hcrossed : k = crossedAt shifts (front.map NamedMapping.place ++ [m.place]) := CrossingOff.eq_crossed_iff.2 hk
    rw [hcrossed]
    exact h front m after heq

theorem inForce_mem (shifts : List SourceMapShifts) (k : Nat) (line : Int) :
    inForce shifts k line ∈ 0 :: shifts.map delta := by
  unfold inForce
  split
  · exact List.mem_cons_self
  · cases h : shifts[k]? with
    | none => exact List.mem_cons_self
    | some s =>
      show (if s.before.lines = line then s.delta else 0) ∈ _
      split
      · exact List.mem_cons_of_mem _ (List.mem_map_of_mem (List.mem_of_getElem? h))
      · exact List.mem_cons_self

/-- Behind its line a shift has no effect. -/
theorem inForce_of_lt {k : Nat} {line : Int}
    (h : k = 0 ∨ ∃ s, shifts[k]? = some s ∧ s.before.lines < line) : inForce shifts k line = 0 := by
  unfold inForce
  rcases h with rfl | ⟨s, hs, hlt⟩
  · exact if_pos rfl
  · rw [hs]
    have hne : s.before.lines ≠ line := by omega
    rw [Option.map_some, Option.getD_some, if_neg hne, ite_self]

theorem cross_drop (shifts : List SourceMapShifts) (p : Nat) (place : LineColumnOffset) :
    cross (shifts.drop p) place =
      match shifts[p + 1]? with
      | some shift => if shift.before.comesBefore place then some (shift, shifts.drop (p + 1)) else none
      | none => none := by
  unfold cross
  cases hnext : shifts[p + 1]? with
  | none =>
    have hlength : shifts.length ≤ p + 1 := List.getElem?_eq_none_iff.1 hnext
    have hshort : (shifts.drop p).length ≤ 1 := by rw [List.length_drop]; omega
    match hdrop : shifts.drop p with
    | [] => rfl
    | [_] => rfl
    | a :: b :: rest =>
      rw [hdrop] at hshort
      simp at hshort
  | some shift =>
    obtain ⟨hlt, rfl⟩ := List.getElem?_eq_some_iff.1 hnext
    have hdrop : shifts.drop p = shifts[p] :: shifts[p + 1] :: shifts.drop (p + 2) := by
      rw [List.drop_eq_getElem_cons (by omega), List.drop_eq_getElem_cons hlt]
    have hdrop' : shifts.drop (p + 1) = shifts[p + 1] :: shifts.drop (p + 2) := List.drop_eq_getElem_cons hlt
    rw [hdrop, hdrop']

theorem comesBefore_lines {a b : LineColumnOffset} (h : a.comesBefore b = true) : a.lines ≤ b.lines := by
  unfold LineColumnOffset.comesBefore at h
  simp only [Bool.or_eq_true, decide_eq_true_eq, Bool.and_eq_true, beq_iff_eq] at h
  omega

theorem lines_of_not_comesBefore {a b : LineColumnOffset} (h : b.comesBefore a = false) : a.lines ≤ b.lines := by
  unfold LineColumnOffset.comesBefore at h
  simp only [Bool.or_eq_false_iff, decide_eq_false_iff_not] at h
  omega

instance (value : Int) : Decidable (Vlq.InRange value) := inferInstanceAs (Decidable (_ < _))

theorem i32_add_sub (a b c : Int) : i32 (i32 (a + b) - c) = i32 (a + b - c) := by
  rw [Int.sub_eq_add_neg, i32_add, ← Int.sub_eq_add_neg]

/-- What holds in front of some entries: `p` shifts have been crossed, and `prevDelta` is what the last of them still does. -/
structure Midway (shifts : List SourceMapShifts) (places : List LineColumnOffset) (p : Nat) (s : SourceMapState)
    (prevDelta : Int) : Prop where
  crossed : p = crossedAt shifts places
  past : p = 0 ∨ ∃ shift, shifts[p]? = some shift ∧ shift.before.lines ≤ s.generatedLine
  inForce : prevDelta = SourceMap.inForce shifts p s.generatedLine
  line : 0 ≤ s.generatedLine
  column : 0 ≤ s.generatedColumn ∧ s.generatedColumn < 2147483648

theorem midway_zero (shifts : List SourceMapShifts) : Midway shifts [] 0 .zero 0 :=
  ⟨rfl, .inl rfl, rfl, by decide, by decide⟩

namespace Midway
variable {shifts : List SourceMapShifts} {places : List LineColumnOffset} {p : Nat} {s : SourceMapState} {prevDelta : Int}
  (h : Midway shifts places p s prevDelta)
include h

theorem newline : Midway shifts places p s.newline 0 where
  crossed := h.crossed
  past := by
    rcases h.past with hp | ⟨shift, hshift, hle⟩
    · exact .inl hp
    · exact .inr ⟨shift, hshift, Int.le_add_one hle⟩
  inForce := by
    symm
    apply inForce_of_lt
    rcases h.past with hp | ⟨shift, hshift, hle⟩
    · exact .inl hp
    · exact .inr ⟨shift, hshift, Int.lt_add_one_of_le hle⟩
  line := Int.le_add_one h.line
  column := ⟨Int.le_refl 0, (by decide : (0 : Int) < 2147483648)⟩

variable {d : Segment} (hcolumn : 0 ≤ (s.move d).generatedColumn ∧ (s.move d).generatedColumn < 2147483648)
include hcolumn

/-- No shift is crossed at a mapping. -/
theorem stay (hcross : cross (shifts.drop p) (s.move d).generated = none) :
    Midway shifts (places ++ [(s.move d).generated]) p (s.move d) prevDelta where
  crossed := by
    rw [cross_drop] at hcross
    unfold crossedAt
    rw [CrossingOff.crossed_concat, ← crossedAt, ← h.crossed]
    unfold CrossingOff.step
    rw [List.getElem?_tail]
    cases hnext : shifts[p + 1]? with
    | none => rfl
    | some shift =>
      rw [hnext] at hcross
      simp only at hcross
      by_cases hbefore : shift.before.comesBefore (s.move d).generated = true
      · rw [if_pos hbefore] at hcross
        cases hcross
      · exact (if_neg hbefore).symm
  past := h.past
  inForce := h.inForce
  line := h.line
  column := hcolumn

/-- The next shift is crossed at a mapping. On an earlier line it does nothing, and nor did the one before. -/
theorem cross (hshifts : Collected shifts) {shift : SourceMapShifts} {rest : List SourceMapShifts}
    (hcross : Finalizer.cross (shifts.drop p) (s.move d).generated = some (shift, rest)) :
    rest = shifts.drop (p + 1) ∧ shift ∈ shifts ∧
      Midway shifts (places ++ [(s.move d).generated]) (p + 1) (s.move d)
        (if shift.before.lines = s.generatedLine then shift.delta else 0) ∧
      (shift.before.lines ≠ s.generatedLine → prevDelta = 0) := by
  rw [cross_drop] at hcross
  cases hnext : shifts[p + 1]? with
  | none =>
    rw [hnext] at hcross
    cases hcross
  | some next =>
    rw [hnext] at hcross
    simp only at hcross
    by_cases hbefore : next.before.comesBefore (s.move d).generated = true
    · rw [if_pos hbefore, Option.some.injEq, Prod.mk.injEq] at hcross
      obtain ⟨rfl, rfl⟩ := hcross
      have hle : next.before.lines ≤ s.generatedLine := comesBefore_lines hbefore
      refine ⟨rfl, List.mem_of_getElem? hnext, ⟨?_, .inr ⟨next, hnext, hle⟩, ?_, h.line, hcolumn⟩, fun hne => ?_⟩
      · unfold crossedAt
        rw [CrossingOff.crossed_concat, ← crossedAt, ← h.crossed]
        unfold CrossingOff.step
        rw [List.getElem?_tail, hnext]
        exact (if_pos hbefore).symm
      · unfold SourceMap.inForce
        rw [if_neg (Nat.succ_ne_zero p), hnext]
        rfl
      · rw [h.inForce]
        apply inForce_of_lt
        rcases h.past with hp | ⟨last, hlast, -⟩
        · exact .inl hp
        · obtain ⟨hp, rfl⟩ := List.getElem?_eq_some_iff.1 hlast
          obtain ⟨hp1, hnext'⟩ := List.getElem?_eq_some_iff.1 hnext
          have hsorted := lines_of_not_comesBefore
            (List.pairwise_iff_getElem.1 hshifts.sorted p (p + 1) hp hp1 (Nat.lt_succ_self p))
          rw [hnext'] at hsorted
          exact .inr ⟨shifts[p], hlast, by omega⟩
    · rw [if_neg hbefore] at hcross
      cases hcross

end Midway

theorem Midway.corrected_cons {places : List LineColumnOffset} {p : Nat}
    {s : SourceMapState} (h : Midway shifts (places ++ [s.generated]) p s prevDelta) (name : Option Int)
    (mappings : List NamedMapping) :
    corrected shifts places (⟨s, name⟩ :: mappings) =
      ⟨{s with generatedColumn := s.generatedColumn + prevDelta}, name⟩ ::
        corrected shifts (places ++ [s.generated]) mappings := by
  show (NamedMapping.mk s name).moveBy
      (SourceMap.inForce shifts (crossedAt shifts (places ++ [s.generated])) s.generatedLine) :: _ = _
  rw [← h.crossed, ← h.inForce]
  rfl

theorem move_column (s : SourceMapState) (d : Segment) (columns : Int) :
    ({s with generatedColumn := s.generatedColumn + columns} : SourceMapState).move d =
      {s.move d with generatedColumn := (s.move d).generatedColumn + columns} := by
  simp only [SourceMapState.move, SourceMapState.mk.injEq, and_true, true_and]
  omega

theorem move_rewritten {w : Written} {number : List UInt8} {delta prevDelta : Int}
    (h : Vlq.valueOf number = Vlq.valueOf w.generatedColumn + delta - prevDelta) (s : SourceMapState) :
    ({s with generatedColumn := s.generatedColumn + prevDelta} : SourceMapState).move
        ({w with generatedColumn := number} : Written).delta =
      {s.move w.delta with generatedColumn := (s.move w.delta).generatedColumn + delta} := by
  simp only [SourceMapState.move, Written.delta, SourceMapState.mk.injEq, and_true, true_and]
  omega

/-- The text that is joined says what it should, as far as the shifts have been crossed. -/
theorem mappingsOf_rewrite (hshifts : Collected shifts) (hvalid : ∀ e ∈ entries, e.Valid)
    (hsums : ∀ w, .segment w ∈ entries → ∀ d ∈ 0 :: shifts.map delta, ∀ d' ∈ 0 :: shifts.map delta,
      Vlq.InRange (Vlq.valueOf w.generatedColumn + d - d'))
    {places : List LineColumnOffset} {p : Nat} {s : SourceMapState} {prevDelta name : Int}
    (h : Midway shifts places p s prevDelta)
    (hcolumns : ∀ m ∈ mappingsOf s name entries, 0 ≤ m.state.generatedColumn ∧ m.state.generatedColumn < 2147483648)
    (hline : s.generatedLine + entries.length < 2147483648) :
    mappingsOf {s with generatedColumn := s.generatedColumn + prevDelta} name
        (rewrite (shifts.drop p) s.generated prevDelta entries) =
      corrected shifts places (mappingsOf s name entries) ∧
    ∀ e ∈ rewrite (shifts.drop p) s.generated prevDelta entries, e.Valid := by
  induction entries generalizing places p s prevDelta name with
  | nil => exact ⟨rfl, List.forall_mem_nil _⟩
  | cons e entries ih =>
    obtain ⟨he, hbehind⟩ := List.forall_mem_cons.1 hvalid
    have hrest := @ih hbehind fun w hw => hsums w (List.mem_cons_of_mem _ hw)
    rw [List.length_cons] at hline
    have hzero := h.line
    cases e with
    | newline =>
      have hnext : i32 (s.generatedLine + 1) = s.generatedLine + 1 := i32_of_range (by unfold Int32Range; omega)
      have hnewline := hrest h.newline hcolumns (by show s.generatedLine + 1 + _ < _; omega)
      have hstate : ({s with generatedColumn := s.generatedColumn + prevDelta} : SourceMapState).newline =
          {s.newline with generatedColumn := s.newline.generatedColumn + 0} := by
        simp [SourceMapState.newline]
      have hgenerated : (⟨i32 (s.generated.lines + 1), 0⟩ : LineColumnOffset) = s.newline.generated := by
        show (⟨i32 (s.generatedLine + 1), 0⟩ : LineColumnOffset) = ⟨s.generatedLine + 1, 0⟩
        rw [hnext]
      rw [rewrite, mappingsOf, mappingsOf, hstate, hgenerated]
      exact ⟨hnewline.1, List.forall_mem_cons.2 ⟨trivial, hnewline.2⟩⟩
    | segment w =>
      have hw : w.Valid := he
      have hmoved := hcolumns _ List.mem_cons_self
      have hcolumn : 0 ≤ (s.move w.delta).generatedColumn ∧ (s.move w.delta).generatedColumn < 2147483648 := hmoved
      have hgenerated : ({s.generated with columns := i32 (s.generated.columns + Vlq.valueOf w.generatedColumn)} :
          LineColumnOffset) = (s.move w.delta).generated := by
        have : i32 (s.generatedColumn + Vlq.valueOf w.generatedColumn) = s.generatedColumn + Vlq.valueOf w.generatedColumn :=
          i32_of_range (by
            have : (s.move w.delta).generatedColumn = s.generatedColumn + Vlq.valueOf w.generatedColumn := rfl
            unfold Int32Range
            omega)
        show (⟨s.generatedLine, i32 (s.generatedColumn + Vlq.valueOf w.generatedColumn)⟩ : LineColumnOffset) = _
        rw [this]
        rfl
      have hbehindColumns := fun m hm => hcolumns m (List.mem_cons_of_mem _ hm)
      have hlater : (s.move w.delta).generatedLine + entries.length < 2147483648 := by
        show s.generatedLine + _ < _
        omega
      rw [rewrite]
      simp only
      rw [hgenerated]
      cases hcross : Finalizer.cross (shifts.drop p) (s.move w.delta).generated with
      | none =>
        have hstay := h.stay hcolumn hcross
        obtain ⟨heq, hentries⟩ := hrest hstay hbehindColumns hlater
        refine ⟨?_, List.forall_mem_cons.2 ⟨hw, hentries⟩⟩
        rw [mappingsOf, mappingsOf, move_column, hstay.corrected_cons]
        exact congrArg _ heq
      | some pair =>
        obtain ⟨shift, rest⟩ := pair
        obtain ⟨rfl, hmem, hmidway, hnothing⟩ := h.cross hcolumn hshifts hcross
        simp only
        have hlines := hshifts.lines shift hmem
        by_cases hother : shift.after.lines ≠ s.generated.lines
        · have hne : shift.before.lines ≠ s.generatedLine := fun heq => hother (hlines.symm.trans heq)
          rw [if_neg hne] at hmidway
          rw [if_pos hother, hnothing hne]
          obtain ⟨heq, hentries⟩ := hrest hmidway hbehindColumns hlater
          refine ⟨?_, List.forall_mem_cons.2 ⟨hw, hentries⟩⟩
          rw [mappingsOf, mappingsOf, move_column, hmidway.corrected_cons]
          exact congrArg _ heq
        · have heqLine : shift.before.lines = s.generatedLine := hlines.trans (not_not.1 hother)
          rw [if_pos heqLine] at hmidway
          have hdelta : i32 (shift.after.columns - shift.before.columns) = shift.delta := by
            obtain ⟨hbefore, hafter⟩ := hshifts.places shift hmem
            have hbefore := hbefore.2
            have hafter := hafter.2
            exact i32_of_range (by unfold Int32Range; omega)
          have hrange := hsums w List.mem_cons_self shift.delta
            (List.mem_cons_of_mem _ (List.mem_map_of_mem hmem)) prevDelta (h.inForce ▸ inForce_mem shifts p s.generatedLine)
          have hvalue : i32 (i32 (Vlq.valueOf w.generatedColumn + shift.delta) - prevDelta) =
              Vlq.valueOf w.generatedColumn + shift.delta - prevDelta := by
            rw [i32_add_sub]
            unfold Vlq.InRange at hrange
            exact i32_of_range (by unfold Int32Range; omega)
          obtain ⟨hfield, hback⟩ := Vlq.field_encode hrange
          rw [if_neg hother, hdelta, hvalue]
          obtain ⟨heq, hentries⟩ := hrest hmidway hbehindColumns hlater
          refine ⟨?_, List.forall_mem_cons.2 ⟨?_, hentries⟩⟩
          · rw [mappingsOf, mappingsOf, move_rewritten hback, hmidway.corrected_cons]
            exact congrArg _ heq
          · exact ⟨hfield, hw.sourceIndex, hw.originalLine, hw.originalColumn, hw.nameIndex⟩

theorem length_textOf (hvalid : ∀ e ∈ entries, e.Valid) : entries.length ≤ (textOf entries).length := by
  induction entries with
  | nil => exact Nat.le_refl _
  | cons e entries ih =>
    obtain ⟨he, hbehind⟩ := List.forall_mem_cons.1 hvalid
    have ih := ih hbehind
    cases e with
    | newline => exact Nat.succ_le_succ ih
    | segment w =>
      obtain ⟨digit, digits, hcons, -⟩ := Written.Valid.cons he
      rw [textOf, hcons, List.length_cons, List.length_append, List.length_append, List.length_cons]
      omega

/-- What is joined is the text of entries, and it says of every mapping what it said before, moved by the shift that has been
reached there. -/
theorem finalize_spec (jsonPrefix suffix : List UInt8) (hshifts : Collected shifts) (hfit : Entry.Fit shifts entries) :
    ∃ text, finalize ⟨jsonPrefix, textOf entries, suffix⟩ shifts = .ok (jsonPrefix ++ text ++ suffix) ∧
      Decodes text (corrected shifts [] (mappingsOf .zero 0 entries)) := by
  have hlength := length_textOf hfit.valid
  have hentries := hfit.length
  have hmappings := mappingsOf_rewrite hshifts hfit.valid hfit.sums (midway_zero shifts) hfit.columns (by
    show (0 : Int) + _ < _
    omega)
  refine ⟨textOf (rewrite shifts ⟨0, 0⟩ 0 entries), ?_, rewrite shifts ⟨0, 0⟩ 0 entries, hmappings.2, rfl, hmappings.1⟩
  unfold finalize
  simp only
  by_cases hempty : textOf entries = [] ∧ suffix = []
  · have hnil : entries = [] := List.eq_nil_of_length_eq_zero (by
      rw [hempty.1] at hlength
      exact Nat.le_zero.1 hlength)
    subst hnil
    rw [if_pos hempty, hempty.2]
    show Except.ok jsonPrefix = Except.ok (jsonPrefix ++ [] ++ [])
    rw [List.append_nil, List.append_nil]
  · obtain ⟨s, hloop, hjoined⟩ := @loop_text _ hfit.valid _ hlength [] ⟨shifts, 0, 0, ⟨0, 0⟩, 0, jsonPrefix⟩ rfl
      (Nat.le_refl _)
    rw [List.nil_append] at hloop hjoined
    rw [List.drop_nil, List.append_nil] at hjoined
    rw [if_neg hempty, hloop]
    show Except.ok (s.j ++ (textOf entries).drop s.startOfRun ++ suffix) = _
    rw [hjoined]

theorem substituted_iff (jsonPrefix suffix : List UInt8) (hshifts : Collected shifts) (hfit : Entry.Fit shifts entries) :
    Substituted jsonPrefix suffix shifts entries ↔
      corrected shifts [] (mappingsOf .zero 0 entries) =
        (mappingsOf .zero 0 entries).map fun m => m.moveBy (offset shifts m.place) := by
  obtain ⟨text, hfinalize, hdecodes⟩ := finalize_spec jsonPrefix suffix hshifts hfit
  constructor
  · intro h
    obtain ⟨out, hout, text', hsplit, hdecodes'⟩ := h
    rw [hfinalize, Except.ok.injEq] at hout
    have htext : text = text' := by
      rw [hsplit, List.append_assoc, List.append_assoc] at hout
      exact List.append_cancel_right (List.append_cancel_left hout)
    rw [htext] at hdecodes
    exact decodes_unique hdecodes hdecodes'
  · intro h
    rw [h] at hdecodes
    exact ⟨_, hfinalize, text, rfl, hdecodes⟩

/-- A map says what it should exactly where every mapping is reached in time. -/
theorem finalize_exact (jsonPrefix suffix : List UInt8) (shifts : List SourceMapShifts) (entries : List Entry)
    (hshifts : Collected shifts) (hfit : Entry.Fit shifts entries) :
    Substituted jsonPrefix suffix shifts entries ↔ InTime shifts (mappingsOf .zero 0 entries) :=
  (substituted_iff jsonPrefix suffix hshifts hfit).trans inTime_iff.symm

/-- A text with one mapping -/
def single (column : Int) : List Entry :=
  [.segment ⟨Vlq.encode column, Vlq.encode 0, Vlq.encode 0, Vlq.encode 0, none⟩]

theorem fit_single {column : Int} (hcolumn : 0 ≤ column ∧ column < 2147483648)
    (hlength : (textOf (single column)).length < 2147483648)
    (hsums : ∀ d ∈ 0 :: shifts.map delta, ∀ d' ∈ 0 :: shifts.map delta, Vlq.InRange (column + d - d')) :
    Entry.Fit shifts (single column) := by
  obtain ⟨hfield, hvalue⟩ := @Vlq.field_encode column (by unfold Vlq.InRange; omega)
  obtain ⟨hzero, -⟩ := @Vlq.field_encode 0 (by decide)
  refine ⟨List.forall_mem_singleton.2 ⟨hfield, hzero, hzero, hzero, by simp⟩, hlength, ?_, fun w hw => ?_⟩
  · refine List.forall_mem_singleton.2 ?_
    show 0 ≤ 0 + Vlq.valueOf (Vlq.encode column) ∧ 0 + Vlq.valueOf (Vlq.encode column) < 2147483648
    rw [hvalue, Int.zero_add]
    exact hcolumn
  · obtain rfl := Entry.segment.inj (List.mem_singleton.1 hw)
    rw [hvalue]
    exact hsums

/-- The start, and two placeholders on the first line -/
def twoShifts : List SourceMapShifts := [⟨⟨0, 0⟩, ⟨0, 0⟩⟩, ⟨⟨0, 1⟩, ⟨0, 2⟩⟩, ⟨⟨0, 3⟩, ⟨0, 5⟩⟩]

theorem collected_twoShifts : Collected twoShifts := ⟨by decide, by decide, by decide⟩

theorem finalize_exact_between : Substituted [0x7B] [0x7D] twoShifts (single 2) ∧
    InTime twoShifts (mappingsOf .zero 0 (single 2)) := by
  have hfit : Entry.Fit twoShifts (single 2) := fit_single (by decide) (by decide +kernel) (by decide)
  have hintime : InTime twoShifts (mappingsOf .zero 0 (single 2)) := inTime_iff.2 (by decide +kernel)
  exact ⟨(finalize_exact _ _ _ _ collected_twoShifts hfit).2 hintime, hintime⟩

/-- Behind both placeholders the mapping is moved by the first one only. -/
theorem finalize_late : ¬ ∀ (jsonPrefix suffix : List UInt8) (shifts : List SourceMapShifts) (entries : List Entry),
    Collected shifts → Entry.Fit shifts entries → Substituted jsonPrefix suffix shifts entries := by
  intro h
  have hfit : Entry.Fit twoShifts (single 5) := fit_single (by decide) (by decide +kernel) (by decide)
  have hsubstituted := h [0x7B] [0x7D] twoShifts (single 5) collected_twoShifts hfit
  rw [substituted_iff _ _ collected_twoShifts hfit] at hsubstituted
  exact absurd hsubstituted (by decide +kernel)

end SourceMapPieces
end Funbun.SourceMap
