import Funbun.Library.CheckedLoop
import Funbun.Patch.PatchFile

/-! What is parsed is well formed: no hunk begins before the first line, no part is without lines, and the header of a hunk has
the lengths of its parts. -/
namespace Funbun.Patch
open Library

/-- Lines are counted from 1, and every part has some. -/
structure Hunk.WellFormed (h : Hunk) : Prop where
  start : 1 ≤ h.header.patched.start
  lines : ∀ part ∈ h.parts, part.lines ≠ []

theorem parseHunkHeaderLineImpl_start {text rest : Bytes} {range : HeaderRange}
    (h : parseHunkHeaderLineImpl text = .ok (range, rest)) : 1 ≤ range.start := by
  unfold parseHunkHeaderLineImpl at h
  simp only at h
  split at h
  · cases h
  · split at h
    · cases h
      exact Nat.le_max_left ..
    · cases h

theorem parseHunkHeaderLine_wellFormed {line : Bytes} {hunk : Hunk} (h : parseHunkHeaderLine line = .ok hunk) : hunk.WellFormed := by
  unfold parseHunkHeaderLine at h
  simp only at h
  split at h
  · cases h
  · obtain ⟨first, -, h⟩ := bind_eq_ok.1 h
    split at h
    · cases h
    · obtain ⟨second, hsecond, h⟩ := bind_eq_ok.1 h
      split at h
      · cases h
        exact ⟨parseHunkHeaderLineImpl_start hsecond, nofun⟩
      · cases h

namespace PatchLinesParser

structure WellFormed (p : PatchLinesParser) : Prop where
  result : ∀ file ∈ p.result, ∀ h ∈ file.hunks, h.WellFormed
  current : ∀ h ∈ p.currentFilePatch.hunks, h.WellFormed
  hunk : ∀ h ∈ p.currentHunk, h.WellFormed
  part : ∀ part ∈ p.currentHunkMutationPart, part.lines ≠ []

variable {p p' : PatchLinesParser} {line : Bytes}

theorem wellFormed_default : WellFormed default := by
  constructor <;> simp [default, FileDeets.default]

theorem WellFormed.commitHunk (h : p.WellFormed) : p.commitHunk.WellFormed := by
  unfold PatchLinesParser.commitHunk
  cases hhunk : p.currentHunk with
  | none => exact h
  | some hunk =>
    have hold := h.hunk hunk hhunk
    have hlines : ∀ part ∈ hunk.parts ++ p.currentHunkMutationPart.toList, part.lines ≠ [] :=
      List.forall_mem_append.2 ⟨hold.lines, fun part hpart => h.part part (Option.mem_toList.1 hpart)⟩
    exact ⟨h.result, List.forall_mem_append.2 ⟨h.current, List.forall_mem_singleton.2 ⟨hold.start, hlines⟩⟩, nofun, nofun⟩

theorem WellFormed.commitFilePatch (h : p.WellFormed) : p.commitFilePatch.WellFormed := by
  have h := h.commitHunk
  exact ⟨List.forall_mem_append.2 ⟨h.result, List.forall_mem_singleton.2 h.current⟩, nofun, h.hunk, h.part⟩

/-- The texts of a header are no hunks. -/
theorem WellFormed.edit (h : p.WellFormed) {f : FileDeets → FileDeets} (hf : ∀ file, (f file).hunks = file.hunks)
    (hedit : p.edit f = .ok p') : p'.WellFormed := by
  cases hedit
  refine ⟨h.result, ?_, h.hunk, h.part⟩
  simp only
  rw [hf]
  exact h.current

theorem WellFormed.headerLine (h : p.WellFormed) (hline : p.headerLine line = .ok p') : p'.WellFormed := by
  unfold PatchLinesParser.headerLine at hline
  repeat' split at hline
  all_goals first
    | exact h.edit (by exact fun _ => rfl) hline
    | exact h.commitFilePatch.edit (by exact fun _ => rfl) hline
    | (cases hline; first | done | exact h)

theorem WellFormed.partLine (h : p.WellFormed) {ty : PartType} (hline : p.partLine ty line = .ok p') : p'.WellFormed := by
  unfold PatchLinesParser.partLine at hline
  have hnew : ∀ part ∈ some (⟨ty, [line.drop 1], false⟩ : PatchMutationPart), part.lines ≠ [] := by simp
  cases hhunk : p.currentHunk with
  | none => simp [hhunk] at hline
  | some hunk =>
    have hold := h.hunk hunk hhunk
    have hhunks : ∀ h' ∈ some hunk, h'.WellFormed := hhunk ▸ h.hunk
    rw [hhunk] at hline
    cases hpart : p.currentHunkMutationPart with
    | none =>
      rw [hpart] at hline
      cases hline
      exact ⟨h.result, h.current, hhunks, hnew⟩
    | some part =>
      rw [hpart] at hline
      simp only at hline
      split at hline
      · cases hline
        exact ⟨h.result, h.current, hhunks, by simp⟩
      · cases hline
        refine ⟨h.result, h.current, fun h' hh' => ?_, hnew⟩
        cases hh'
        exact ⟨hold.start, List.forall_mem_append.2 ⟨hold.lines, List.forall_mem_singleton.2 (h.part part hpart)⟩⟩

theorem WellFormed.pragmaLine (h : p.WellFormed) (hline : p.pragmaLine line = .ok p') : p'.WellFormed := by
  unfold PatchLinesParser.pragmaLine at hline
  split at hline
  · cases hline
  · cases hpart : p.currentHunkMutationPart with
    | none => simp [hpart] at hline
    | some part =>
      rw [hpart] at hline
      cases hline
      refine ⟨h.result, h.current, h.hunk, fun part' hpart' => ?_⟩
      cases hpart'
      exact h.part part hpart

theorem WellFormed.hunkHeaderLine (h : p.WellFormed) (hline : p.hunkHeaderLine line = .ok p') : p'.WellFormed := by
  obtain ⟨hunk, hhunk, hline⟩ := bind_eq_ok.1 hline
  cases hline
  refine ⟨h.commitHunk.result, h.commitHunk.current, fun h' hh' => ?_, h.commitHunk.part⟩
  cases hh'
  exact parseHunkHeaderLine_wellFormed hhunk

/-- A turn keeps what is parsed well formed, in whichever state it is. -/
theorem WellFormed.turn (h : p.WellFormed) {legacy back : Bool} (hturn : p.turn legacy line = .ok (p', back)) : p'.WellFormed := by
  have hback : ({ p with state := .parsingHeader } : PatchLinesParser).WellFormed := ⟨h.result, h.current, h.hunk, h.part⟩
  unfold PatchLinesParser.turn at hturn
  cases hstate : p.state with
  | parsingHeader =>
    simp only [hstate] at hturn
    split at hturn
    · cases hturn
      exact ⟨h.result, nofun, h.hunk, h.part⟩
    · obtain ⟨q, hq, hturn⟩ := bind_eq_ok.1 hturn
      cases hturn
      exact h.headerLine hq
  | parsingHunks =>
    simp only [hstate] at hturn
    repeat' split at hturn
    all_goals first
      | (cases hturn; exact hback.commitFilePatch)
      | obtain ⟨q, hq, hturn⟩ := bind_eq_ok.1 hturn
        cases hturn
        first
          | exact h.partLine hq
          | exact h.hunkHeaderLine hq
          | exact h.pragmaLine hq

theorem WellFormed.parseLine (h : p.WellFormed) {legacy : Bool} (hline : p.parseLine legacy line = .ok p') : p'.WellFormed := by
  obtain ⟨⟨q, back⟩, hq, hline⟩ := bind_eq_ok.1 hline
  cases back with
  | false =>
    cases hline
    exact h.turn hq
  | true =>
    obtain ⟨⟨q', back'⟩, hq', hline⟩ := bind_eq_ok.1 hline
    cases hline
    exact (h.turn hq).turn hq'

end PatchLinesParser

/-- A hunk with lines from the first on, none of its parts empty, and as many of them as its header says -/
def Hunk.Accepted (h : Hunk) : Prop := h.WellFormed ∧ h.verifyIntegrity = true

/-- Every hunk that is read is accepted. -/
theorem parse_accepted {legacy : Bool} {file : Bytes} {files : List FileDeets} (h : parse legacy file = .ok files) :
    ∀ deets ∈ files, ∀ hunk ∈ deets.hunks, hunk.Accepted := by
  unfold parse at h
  simp only at h
  generalize (if file.getLast? = some '\n'.toUInt8 then file.dropLast else file) = text at h
  split at h
  · cases h
    exact List.forall_mem_nil _
  · obtain ⟨p, hp, h⟩ := bind_eq_ok.1 h
    have hparsed : p.WellFormed :=
      foldlM_keeps (fun _ _ _ hs hline => hs.parseLine hline) PatchLinesParser.wellFormed_default hp
    split at h
    · cases h
      rename_i hall
      intro deets hdeets hunk hhunk
      exact ⟨hparsed.commitFilePatch.result deets hdeets hunk hhunk, List.all_eq_true.1 (List.all_eq_true.1 hall deets hdeets) hunk hhunk⟩
    · cases h

variable {parts : List PatchFilePart}

theorem destinationParts_hunks {deets : FileDeets} {path : Option Bytes}
    (h : destinationParts deets path = .ok parts) : ∀ part ∈ parts, ∀ hunk ∈ part.hunks, hunk ∈ deets.hunks := by
  cases path with
  | none =>
    cases h
    exact nofun
  | some path =>
    obtain ⟨modes, hmodes, h⟩ := bind_eq_ok.1 h
    cases h
    have hnone : ∀ part ∈ modes, ∀ hunk ∈ part.hunks, hunk ∈ deets.hunks := by
      repeat' split at hmodes
      all_goals first
        | cases hmodes
          exact nofun
        | obtain ⟨oldMode, -, hmodes⟩ := bind_eq_ok.1 hmodes
          obtain ⟨newMode, -, hmodes⟩ := bind_eq_ok.1 hmodes
          cases hmodes
          exact List.forall_mem_singleton.2 nofun
    refine List.forall_mem_append.2 ⟨hnone, ?_⟩
    split
    · exact nofun
    · exact List.forall_mem_singleton.2 fun _ h => h

/-- The parts of a file have no hunks but its own. -/
theorem fileParts_hunks {deets : FileDeets} (h : fileParts deets = .ok parts) :
    ∀ part ∈ parts, ∀ hunk ∈ part.hunks, hunk ∈ deets.hunks := by
  have hfirst : ∀ hunk ∈ deets.hunks.head?.toList, hunk ∈ deets.hunks := fun hunk hhunk =>
    List.mem_of_head? (Option.mem_toList.1 hhunk)
  unfold fileParts at h
  repeat' split at h
  all_goals first
    | exact destinationParts_hunks h
    | cases h
    | obtain ⟨mode, hmode, h⟩ := bind_eq_ok.1 h
      cases h
      first
        | exact List.forall_mem_singleton.2 hfirst
        | exact List.forall_mem_cons.2 ⟨nofun, destinationParts_hunks hmode⟩

theorem mapM_fileParts : ∀ {files : List FileDeets} {partss : List (List PatchFilePart)}, files.mapM fileParts = .ok partss →
    ∀ part ∈ partss.flatten, ∃ deets ∈ files, ∀ hunk ∈ part.hunks, hunk ∈ deets.hunks
  | [], _, h => by
    cases h
    exact nofun
  | deets :: files, _, h => by
    rw [List.mapM_cons] at h
    obtain ⟨parts, hparts, h⟩ := bind_eq_ok.1 h
    obtain ⟨rest, hrest, h⟩ := bind_eq_ok.1 h
    cases h
    refine List.forall_mem_append.2 ⟨fun part hpart => ⟨deets, List.mem_cons_self, fileParts_hunks hparts part hpart⟩, ?_⟩
    intro part hpart
    obtain ⟨deets', hdeets', hhunks⟩ := mapM_fileParts hrest part hpart
    exact ⟨deets', List.mem_cons_of_mem deets hdeets', hhunks⟩

/-- Every hunk of a patch file that is accepted -/
theorem accepted_of_parsePatchFile {file : Bytes} (h : parsePatchFile file = .ok parts) :
    ∀ part ∈ parts, ∀ hunk ∈ part.hunks, hunk.Accepted := by
  obtain ⟨files, hfiles, h⟩ := bind_eq_ok.1 h
  obtain ⟨partss, hpartss, h⟩ := bind_eq_ok.1 h
  cases h
  have hall : ∀ deets ∈ files, ∀ hunk ∈ deets.hunks, hunk.Accepted := by
    split at hfiles
    · exact parse_accepted hfiles
    · exact parse_accepted hfiles
  intro part hpart hunk hhunk
  obtain ⟨deets, hdeets, hhunks⟩ := mapM_fileParts hpartss part hpart
  exact hall deets hdeets hunk (hhunks hunk hhunk)

end Funbun.Patch
