import Funbun.Library.CrossingOff
import Funbun.SourceMap.MappingsText
import Funbun.SourceMap.Pieces
import Funbun.SourceMap.Parse

/-! What a source map says when its placeholders have been replaced.

At most one shift is crossed for each mapping. So a mapping is moved as it should be only where the shifts in front of it
have been crossed by as many mappings: `finalize_exact`. -/
namespace Funbun.SourceMap
open Library

/-! ### The text that is joined -/

namespace SourceMapPieces
open Finalizer

/-- The entries with the columns that are written anew -/
def rewrite (shifts : List SourceMapShifts) (generated : LineColumnOffset) (prevDelta : Int) : List Entry → List Entry
  | [] => []
  | .newline :: entries => .newline :: rewrite shifts ⟨i32 (generated.lines + 1), 0⟩ 0 entries
  | .segment w :: entries =>
    let value := Vlq.valueOf w.generatedColumn
    let generated := {generated with columns := i32 (generated.columns + value)}
    match cross shifts generated with
    | none => .segment w :: rewrite shifts generated prevDelta entries
    | some (shift, shifts) =>
      if shift.after.lines ≠ generated.lines then .segment w :: rewrite shifts generated prevDelta entries
      else
        let delta := i32 (shift.after.columns - shift.before.columns)
        .segment {w with generatedColumn := Vlq.encode (i32 (i32 (value + delta) - prevDelta))} ::
          rewrite shifts generated delta entries

theorem gap_rewrite (shifts : List SourceMapShifts) (generated : LineColumnOffset) (prevDelta : Int) (entries : List Entry) :
    gap (rewrite shifts generated prevDelta entries) = gap entries := by
  cases entries with
  | nil => rfl
  | cons e entries =>
    cases e with
    | newline => rfl
    | segment w =>
      rw [rewrite]
      simp only
      split
      · rfl
      · split <;> rfl

/-- The fields behind the first one -/
def fields (w : Written) : List UInt8 := w.sourceIndex ++ (w.originalLine ++ (w.originalColumn ++ w.nameIndex.getD []))

theorem skipFields_eq {w : Written} (hw : w.Valid) (before : List UInt8) (entries : List Entry) :
    skipFields (before ++ (fields w ++ (gap entries ++ textOf entries))) before.length =
      (before ++ (fields w ++ gap entries)).length := by
  have hread {number : List UInt8} (h : Vlq.Field number) (front rest : List UInt8) :
      (Vlq.decode (front ++ (number ++ rest)) front.length).start = (front ++ number).length := by
    rw [← List.append_assoc, Vlq.decode_field h, List.length_append]
  -- behind the name, if there is one, stands the comma or another line
  have hgap (front : List UInt8) : (if (front ++ (gap entries ++ textOf entries))[front.length]? = some comma then
      front.length + 1 else front.length) = front.length + (gap entries).length := by
    rw [List.getElem?_append_right (Nat.le_refl _), Nat.sub_self, ← List.head?_eq_getElem?]
    cases entries with
    | nil => rfl
    | cons e entries => cases e <;> rfl
  have hshape : before ++ (fields w ++ (gap entries ++ textOf entries)) =
      before ++ (w.sourceIndex ++ (w.originalLine ++ (w.originalColumn ++
        (w.nameIndex.getD [] ++ (gap entries ++ textOf entries))))) := by
    unfold fields
    simp only [List.append_assoc]
  unfold skipFields
  simp only
  rw [hshape, hread hw.sourceIndex, ← List.append_assoc before, hread hw.originalLine, ← List.append_assoc (before ++ _),
    hread hw.originalColumn, ← List.append_assoc (before ++ _ ++ _)]
  unfold fields
  generalize hfront : before ++ w.sourceIndex ++ w.originalLine ++ w.originalColumn = front
  have hlength : (before ++ (w.sourceIndex ++ (w.originalLine ++ (w.originalColumn ++ w.nameIndex.getD [])) ++
      gap entries)).length = front.length + (w.nameIndex.getD []).length + (gap entries).length := by
    rw [← hfront]
    simp only [List.length_append]
    omega
  rw [hlength]
  have hname := hw.nameIndex
  cases hnumber : w.nameIndex with
  | none =>
    rw [Option.getD_none, List.nil_append]
    have hnone : ¬((front ++ (gap entries ++ textOf entries))[front.length]?).any
        (fun c => c != comma && c != semicolon) = true := by
      rw [List.getElem?_append_right (Nat.le_refl _), Nat.sub_self, ← List.head?_eq_getElem?]
      rcases head_separated entries with h | h | h
      · rw [h]
        exact Bool.false_ne_true
      · rw [h]
        decide
      · rw [h]
        decide
    rw [if_neg hnone, hgap]
    rfl
  | some number =>
    have hfield := hname number hnumber
    obtain ⟨digit, digits, hcons, hdigit⟩ := hfield.cons
    have hsome : ((front ++ (number ++ (gap entries ++ textOf entries)))[front.length]?).any
        (fun c => c != comma && c != semicolon) = true := by
      rw [List.getElem?_append_right (Nat.le_refl _), Nat.sub_self, ← List.head?_eq_getElem?, hcons]
      show (digit != comma && digit != semicolon) = true
      rw [Bool.and_eq_true, bne_iff_ne, bne_iff_ne]
      exact ⟨fun h => separator_not_digit.1 (h ▸ hdigit), fun h => separator_not_digit.2 (h ▸ hdigit)⟩
    rw [Option.getD_some, if_pos hsome, hread hfield, ← List.append_assoc front, hgap, List.length_append]

/-- A turn at a segment reads it up to the comma behind it. -/
theorem segment_eq {w : Written} (hw : w.Valid) {done : List UInt8} {entries : List Entry} {s : Finalizer}
    (hcurrent : s.current = done.length) :
    s.segment (done ++ textOf (.segment w :: entries)) =
      let generated := {s.generated with columns := i32 (s.generated.columns + Vlq.valueOf w.generatedColumn)}
      let current := (done ++ (w.bytes ++ gap entries)).length
      match cross s.shifts generated with
      | none => {s with generated, current}
      | some (shift, shifts) =>
        if shift.after.lines ≠ generated.lines then {s with shifts, generated, current}
        else
          let delta := i32 (shift.after.columns - shift.before.columns)
          ⟨shifts, (done ++ w.generatedColumn).length, current, generated, delta, s.j ++ done.drop s.startOfRun ++
            Vlq.encode (i32 (i32 (Vlq.valueOf w.generatedColumn + delta) - s.prevShiftColumnDelta))⟩ := by
  have hbytes : w.bytes = w.generatedColumn ++ fields w := rfl
  have hshape : done ++ textOf (.segment w :: entries) =
      done ++ w.generatedColumn ++ (fields w ++ (gap entries ++ textOf entries)) := by
    rw [textOf, hbytes]
    simp only [List.append_assoc]
  have hdecode : Vlq.decode (done ++ textOf (.segment w :: entries)) done.length =
      ⟨Vlq.valueOf w.generatedColumn, (done ++ w.generatedColumn).length⟩ := by
    rw [hshape, Vlq.decode_field hw.generatedColumn, List.length_append]
  have hskip : skipFields (done ++ textOf (.segment w :: entries)) (done ++ w.generatedColumn).length =
      (done ++ (w.bytes ++ gap entries)).length := by
    rw [hshape, skipFields_eq hw, hbytes]
    simp only [List.append_assoc]
  have htake : (done ++ textOf (.segment w :: entries)).take done.length = done := List.take_left
  unfold Finalizer.segment
  simp only [hcurrent, hdecode, hskip]
  generalize (done ++ textOf (.segment w :: entries)).take done.length = front at htake ⊢
  subst htake
  rfl

/-- The loop joins the text of what is written anew. -/
theorem loop_text {entries : List Entry} (hvalid : ∀ e ∈ entries, e.Valid) {n : Nat} (hn : entries.length ≤ n)
    {done : List UInt8} {s : Finalizer} (hcurrent : s.current = done.length) (hstart : s.startOfRun ≤ done.length) :
    Returns (Finalizer.loop (done ++ textOf entries) n s) fun s' =>
      s'.j ++ (done ++ textOf entries).drop s'.startOfRun =
        s.j ++ done.drop s.startOfRun ++ textOf (rewrite s.shifts s.generated s.prevShiftColumnDelta entries) := by
  induction entries generalizing n done s with
  | nil =>
    have hend : ∀ n, Finalizer.loop (done ++ []) n s = .ok s := by
      intro n
      rw [List.append_nil]
      cases n with
      | zero => exact if_neg (by omega)
      | succ n => rw [Finalizer.loop, List.getElem?_eq_none (by omega)]
    rw [textOf, hend]
    refine .ok ?_
    rw [rewrite, textOf, List.append_nil, List.append_nil]
  | cons e entries ih =>
    obtain ⟨he, hbehind⟩ := List.forall_mem_cons.1 hvalid
    cases n with
    | zero => exact absurd hn (Nat.not_succ_le_zero _)
    | succ n =>
      have hle := Nat.le_of_succ_le_succ hn
      cases e with
      | newline =>
        have hget : (done ++ textOf (.newline :: entries))[s.current]? = some semicolon := by
          rw [hcurrent, List.getElem?_append_right (Nat.le_refl _), Nat.sub_self]
          rfl
        have hshape : done ++ textOf (.newline :: entries) = (done ++ [semicolon]) ++ textOf entries := by
          rw [List.append_assoc]
          rfl
        have hih := @ih hbehind _ hle (done ++ [semicolon]) s.newline
          (by rw [List.length_append, ← hcurrent]; rfl)
          (by rw [List.length_append]; exact Nat.le_succ_of_le hstart)
        rw [Finalizer.loop, hget]
        simp only [if_true]
        rw [hshape]
        refine hih.mono fun s' hs' => hs'.trans ?_
        show s.j ++ (done ++ [semicolon]).drop s.startOfRun ++ textOf (rewrite s.shifts _ 0 entries) = _
        rw [List.drop_append_of_le_length hstart]
        simp only [rewrite, textOf, List.append_assoc, List.singleton_append]
        rfl
      | segment w =>
        obtain ⟨digit, digits, hcons, hdigit⟩ := he.cons
        have hget : (done ++ textOf (.segment w :: entries))[s.current]? = some digit := by
          rw [hcurrent, List.getElem?_append_right (Nat.le_refl _), Nat.sub_self, textOf, hcons]
          rfl
        have hne : digit ≠ semicolon := fun h => separator_not_digit.2 (h ▸ hdigit)
        have hshape : done ++ textOf (.segment w :: entries) = (done ++ (w.bytes ++ gap entries)) ++ textOf entries := by
          rw [textOf]
          simp only [List.append_assoc]
        have hbytes : w.bytes = w.generatedColumn ++ fields w := rfl
        have hlong : done.length ≤ (done ++ (w.bytes ++ gap entries)).length := by
          rw [List.length_append]
          exact Nat.le_add_right _ _
        rw [Finalizer.loop, hget]
        simp only [if_neg hne]
        rw [segment_eq he hcurrent, hshape, rewrite]
        simp only
        cases hcross : cross s.shifts
            {s.generated with columns := i32 (s.generated.columns + Vlq.valueOf w.generatedColumn)} with
        | none =>
          simp only
          refine (ih hbehind hle ?_ ?_).mono fun s' hs' => hs'.trans ?_
          · rfl
          · exact Nat.le_trans hstart hlong
          · rw [List.drop_append_of_le_length hstart, textOf, gap_rewrite]
            simp only [List.append_assoc]
        | some pair =>
          obtain ⟨shift, shifts⟩ := pair
          simp only
          by_cases hline : shift.after.lines ≠ s.generated.lines
          · simp only [if_pos hline]
            refine (ih hbehind hle ?_ ?_).mono fun s' hs' => hs'.trans ?_
            · rfl
            · exact Nat.le_trans hstart hlong
            · rw [List.drop_append_of_le_length hstart, textOf, gap_rewrite]
              simp only [List.append_assoc]
          · simp only [if_neg hline]
            refine (ih hbehind hle ?_ ?_).mono fun s' hs' => hs'.trans ?_
            · rfl
            · rw [hbytes]
              simp only [List.length_append]
              omega
            · have hrest : (done ++ (w.bytes ++ gap entries)).drop (done ++ w.generatedColumn).length =
                  fields w ++ gap entries := by
                rw [hbytes, List.append_assoc, ← List.append_assoc done, List.drop_left]
              rw [hrest, textOf, gap_rewrite]
              simp only [Written.bytes, fields, List.append_assoc]

end SourceMapPieces
end Funbun.SourceMap
