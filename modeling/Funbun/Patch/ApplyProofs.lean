import Funbun.Patch.Apply
import Funbun.Patch.ParseProofs

/-! What a patch that was accepted does, and when it is applied without a fault. -/
namespace Funbun.Patch
open Library
open Strings (ascii)

/-! ### The count of lines -/

/-- The count after some changes, where none of them takes it below zero -/
def count (n : Int) : List Int → Option Int
  | [] => some n
  | d :: ds => if 0 ≤ n + d then count (n + d) ds else none

/-- An end of the file that is marked, where it is taken away or added -/
def PatchMutationPart.changes (part : PatchMutationPart) : List Int :=
  match part.ty with
  | .deletion => [if part.noNewlineAtEndOfFile then 1 else 0]
  | .insertion => [if part.noNewlineAtEndOfFile then -1 else 0]
  | .context => []

/-- What a hunk does to the count of lines, one after the other -/
def Hunk.changes (h : Hunk) : List Int :=
  ((patchedLength h.parts : Int) - originalLength h.parts) :: h.parts.flatMap PatchMutationPart.changes

/-- No change that the hunks make to a file takes the count of its lines below zero. -/
def Countable (hunks : List Hunk) (filebuf : Bytes) : Prop :=
  ∃ m, count (filebuf.splitOn lineBreak).length (hunks.flatMap Hunk.changes) = some m

theorem count_append {n : Int} {a b : List Int} : count n (a ++ b) = (count n a).bind fun m => count m b := by
  induction a generalizing n with
  | nil => rfl
  | cons d ds ih =>
    rw [List.cons_append, count, count]
    split
    · exact ih
    · rfl

theorem count_nonneg : ∀ {ds : List Int} {n m : Int}, 0 ≤ n → count n ds = some m → 0 ≤ m
  | [], _, _, hn, h => Option.some.inj h ▸ hn
  | d :: ds, n, m, _, h => by
    rw [count] at h
    split at h
    · exact count_nonneg ‹_› h
    · cases h

/-- Counting by the changes of one after the other -/
theorem foldlM_count {α : Type} {f : Nat → α → Checked Nat} {changes : α → List Int} : ∀ {xs : List α},
    (∀ x ∈ xs, ∀ n m : Nat, f n x = .ok m ↔ count n (changes x) = some (m : Int)) →
    ∀ n m : Nat, xs.foldlM f n = .ok m ↔ count n (xs.flatMap changes) = some (m : Int)
  | [], _, n, m => by
    simp only [List.foldlM_nil, List.flatMap_nil, count, pure, Except.pure, Except.ok.injEq, Option.some.injEq]
    omega
  | x :: xs, hf, n, m => by
    have hrest := foldlM_count fun y hy => hf y (List.mem_cons_of_mem x hy)
    rw [List.foldlM_cons, bind_eq_ok, List.flatMap_cons, count_append, Option.bind_eq_some_iff]
    constructor
    · intro h
      obtain ⟨k, hk, h⟩ := h
      exact ⟨k, (hf x List.mem_cons_self n k).1 hk, (hrest k m).1 h⟩
    · intro h
      obtain ⟨k, hk, h⟩ := h
      obtain ⟨k, rfl⟩ := Int.eq_ofNat_of_zero_le (count_nonneg (Int.natCast_nonneg n) hk)
      exact ⟨k, (hf x List.mem_cons_self n k).2 hk, (hrest k m).2 h⟩

theorem countPart_ok (part : PatchMutationPart) (n m : Nat) :
    countPart n part = .ok m ↔ count n part.changes = some (m : Int) := by
  obtain ⟨ty, lines, noNewline⟩ := part
  have hsub : (if 1 ≤ n then (.ok (n - 1) : Checked Nat) else .error .overflow) = .ok m ↔ 0 ≤ (n : Int) + -1 ∧ (n : Int) + -1 = m := by
    split
    · simp only [Except.ok.injEq]
      omega
    · simp only [reduceCtorEq, false_iff]
      omega
  cases ty <;> cases noNewline <;> simp [countPart, PatchMutationPart.changes, subFrom, count, hsub]
  all_goals omega

variable {hunks : List Hunk} {noNewline : Bool} {lastLine : Nat}

/-- The count is the sum of the changes, none of which takes it below zero. -/
theorem linesCount_ok (h : ∀ hunk ∈ hunks, hunk.Accepted) (n m : Nat) :
    linesCount hunks n = .ok m ↔ count n (hunks.flatMap Hunk.changes) = some (m : Int) := by
  refine foldlM_count (fun hunk hmem n m => ?_) n m
  have hlengths := (h hunk hmem).2
  simp only [Hunk.verifyIntegrity, Bool.and_eq_true, decide_eq_true_eq] at hlengths
  rw [countHunk, Hunk.changes, count, ← Int.add_sub_assoc, hlengths.1, hlengths.2]
  split
  · rw [foldlM_count fun part _ => countPart_ok part, Int.ofNat_sub ‹_›, Int.natCast_add, if_pos (by omega)]
  · rw [if_neg (by omega)]
    exact ⟨nofun, nofun⟩

theorem linesCount_ne_fuel (hunks : List Hunk) (n : Nat) : linesCount hunks n ≠ .error .fuel := by
  have hsub : ∀ a b, subFrom a b ≠ .error .fuel := by
    intro a b
    unfold subFrom
    split <;> exact nofun
  have hpart : ∀ count part, countPart count part ≠ .error .fuel := by
    intro count part
    unfold countPart
    cases part.ty with
    | deletion => exact nofun
    | insertion => exact hsub _ _
    | context => exact nofun
  refine foldlM_ne_error (fun count hunk => ?_) hunks n
  unfold countHunk
  split
  · exact foldlM_ne_error hpart _ _
  · exact nofun

/-! ### The lines -/

theorem applyPart_returns (part : PatchMutationPart) (cursor : Nat) (lines : List Bytes) :
    ∃ applied, applyPart cursor lines part = .ok applied := by
  unfold applyPart spliceLines
  cases part.ty with
  | context => exact ⟨_, (apply_ite Except.ok _ _ _).symm⟩
  | insertion =>
    by_cases h : lines.length < cursor
    · exact ⟨none, if_pos h⟩
    · exact ⟨_, by simp only [if_neg h, Nat.le_refl, Nat.not_lt.1 h, and_self, if_true]; rfl⟩
  | deletion =>
    by_cases h : lines.length < cursor + part.lines.length
    · exact ⟨none, if_pos h⟩
    · exact ⟨_, by simp only [if_neg h, Nat.le_add_right, Nat.not_lt.1 h, and_self, if_true]; rfl⟩

theorem applyParts_returns (parts : List PatchMutationPart) (cursor : Nat) (lines : List Bytes) :
    ∃ applied, applyParts cursor lines parts = .ok applied := by
  induction parts generalizing cursor lines with
  | nil => exact ⟨_, rfl⟩
  | cons part parts ih =>
    obtain ⟨applied, happlied⟩ := applyPart_returns part cursor lines
    rw [applyParts, happlied]
    cases applied with
    | none => exact ⟨_, rfl⟩
    | some applied => exact ih applied.1 applied.2

/-- No splice is out of range: what does not fit is an error. -/
theorem applyHunks_returns (h : ∀ hunk ∈ hunks, hunk.Accepted) (lines : List Bytes) :
    ∃ applied, applyHunks lines hunks = .ok applied := by
  induction hunks generalizing lines with
  | nil => exact ⟨_, rfl⟩
  | cons hunk hunks ih =>
    rw [applyHunks, subFrom_ok (h hunk List.mem_cons_self).1.start]
    by_cases hcursor : lines.length < hunk.header.patched.start - 1
    · exact ⟨none, if_pos hcursor⟩
    · obtain ⟨applied, happlied⟩ := applyParts_returns hunk.parts (hunk.header.patched.start - 1) lines
      simp only [bind, Except.bind, if_neg hcursor, happlied]
      cases applied with
      | none => exact ⟨_, rfl⟩
      | some lines' => exact ih (fun hunk' h' => h hunk' (List.mem_cons_of_mem hunk h')) lines'

theorem patchedContents_returns (h : ∀ hunk ∈ hunks, hunk.Accepted) (filebuf : Bytes) :
    (∃ patched, patchedContents hunks filebuf = .ok patched) ↔ Countable hunks filebuf := by
  constructor
  · intro hpatched
    obtain ⟨patched, hpatched⟩ := hpatched
    obtain ⟨m, hm, -⟩ := bind_eq_ok.1 hpatched
    exact ⟨m, (linesCount_ok h _ m).1 hm⟩
  · intro hcounted
    obtain ⟨m, hm⟩ := hcounted
    obtain ⟨m, rfl⟩ := Int.eq_ofNat_of_zero_le (count_nonneg (Int.natCast_nonneg _) hm)
    obtain ⟨applied, happlied⟩ := applyHunks_returns h (filebuf.splitOn lineBreak)
    exact ⟨_, bind_eq_ok.2 ⟨m, (linesCount_ok h _ m).2 hm, bind_eq_ok.2 ⟨applied, happlied, rfl⟩⟩⟩

theorem patchedContents_noFault (h : ∀ hunk ∈ hunks, hunk.Accepted) (filebuf : Bytes) :
    NoFault (patchedContents hunks filebuf) ↔ Countable hunks filebuf := by
  rw [← patchedContents_returns h]
  constructor
  · intro hnone
    cases hpatched : patchedContents hunks filebuf with
    | ok patched => exact ⟨patched, rfl⟩
    | error fault =>
      obtain rfl := hnone fault hpatched
      unfold patchedContents at hpatched
      cases hcount : linesCount hunks (filebuf.splitOn lineBreak).length with
      | error fault =>
        rw [hcount] at hpatched
        cases hpatched
        exact absurd hcount (linesCount_ne_fuel _ _)
      | ok n =>
        obtain ⟨applied, happlied⟩ := applyHunks_returns h (filebuf.splitOn lineBreak)
        rw [hcount, happlied] at hpatched
        cases hpatched
  · rintro ⟨patched, hpatched⟩
    rw [hpatched]
    exact noFault_ok _

/-! ### A file that is new -/

/-- The lines of a file, whose last one ends or not -/
def fileText (noNewline : Bool) (lines : List Bytes) : Bytes :=
  List.intercalate [lineBreak] lines ++ if noNewline then [] else [lineBreak]

theorem fileText_cons {line next : Bytes} {lines : List Bytes} :
    fileText noNewline (line :: next :: lines) = line ++ [lineBreak] ++ fileText noNewline (next :: lines) := by
  rw [fileText, List.intercalate_cons_cons, List.append_assoc, fileText]

theorem writeAt_zeros (done bytes : Bytes) (k : Nat) :
    writeAt (done ++ List.replicate (bytes.length + k) 0) done.length bytes = .ok (done ++ bytes ++ List.replicate k 0) := by
  rw [writeAt, if_pos (by simp), List.take_left, List.drop_append]
  simp

theorem contentsCount_eq : ∀ {lines : List Bytes} {line : Bytes} {idx : Nat},
    idx + lines.length = lastLine →
    contentsCount lastLine idx (line :: lines) + (if noNewline then 0 else 1) = (fileText noNewline (line :: lines)).length
  | [], line, idx, h => by
    have hidx : ¬idx < lastLine := Nat.not_lt.2 (Nat.le_of_eq h.symm)
    cases noNewline <;> simp [contentsCount, hidx, fileText]
  | next :: lines, line, idx, h => by
    have hidx : idx < lastLine := h ▸ Nat.lt_add_of_pos_right (Nat.zero_lt_succ _)
    have hrest : idx + 1 + lines.length = lastLine := by rw [← h, List.length_cons]; omega
    rw [contentsCount, if_pos hidx, fileText_cons, List.length_append, ← contentsCount_eq hrest, List.length_append, Nat.add_assoc]
    rfl

theorem writeLines_break {lastLine idx : Nat} (h : (idx < lastLine || !noNewline) = true) (done line : Bytes) (k : Nat)
    (lines : List Bytes) :
    writeLines noNewline lastLine (done ++ List.replicate (line.length + (1 + k)) 0) done.length idx (line :: lines) =
      writeLines noNewline lastLine (done ++ line ++ [lineBreak] ++ List.replicate k 0) (done ++ line ++ [lineBreak]).length (idx + 1)
        lines := by
  have hbreak : writeAt (done ++ line ++ List.replicate (1 + k) 0) (done.length + line.length) [lineBreak] = _ :=
    List.length_append ▸ writeAt_zeros (done ++ line) [lineBreak] k
  rw [writeLines, writeAt_zeros]
  simp only [h, if_true, bind, Except.bind, hbreak, List.length_append, List.length_singleton]

/-- Lines fill the buffer from their place on. -/
theorem writeLines_ok : ∀ {lines : List Bytes} {line done : Bytes} {idx : Nat},
    idx + lines.length = lastLine →
    writeLines noNewline lastLine (done ++ List.replicate (fileText noNewline (line :: lines)).length 0) done.length idx
      (line :: lines) = .ok (done ++ fileText noNewline (line :: lines))
  | [], line, done, idx, h => by
    have hidx : ¬idx < lastLine := Nat.not_lt.2 (Nat.le_of_eq h.symm)
    rw [fileText, List.intercalate_singleton, List.length_append]
    cases noNewline
    · exact (writeLines_break (by simp) done line 0 []).trans (by simp [writeLines])
    · rw [writeLines, writeAt_zeros]
      simp [hidx, writeLines, bind, Except.bind]
  | next :: lines, line, done, idx, h => by
    have hidx : idx < lastLine := h ▸ Nat.lt_add_of_pos_right (Nat.zero_lt_succ _)
    have hrest : idx + 1 + lines.length = lastLine := by rw [← h, List.length_cons]; omega
    rw [fileText_cons, List.length_append, List.length_append, List.length_singleton, Nat.add_assoc,
      writeLines_break (by simp [hidx]), writeLines_ok hrest]
    simp

theorem createdContents_ok {hunk : Hunk} {part : PatchMutationPart} {parts : List PatchMutationPart}
    (hparts : hunk.parts = part :: parts) (hpart : part.lines ≠ []) :
    createdContents hunk = .ok (fileText part.noNewlineAtEndOfFile part.lines) := by
  obtain ⟨line, lines, hlines⟩ := List.exists_cons_of_ne_nil hpart
  have hlast : 0 + lines.length = (line :: lines).length - 1 := Nat.zero_add _
  rw [createdContents, hparts, indexAt_ok (Nat.zero_lt_succ _)]
  simp only [List.getElem_cons_zero, bind, Except.bind, hlines]
  exact (congrArg (fun n => writeLines _ _ (List.replicate n 0) 0 0 _) (contentsCount_eq hlast)).trans (@writeLines_ok _ _ _ _ [] _ hlast)

/-- The contents of a file that a patch creates are the lines of its hunk. -/
theorem createdContents_parsed {file path : Bytes} {parts : List PatchFilePart} {mode : FileMode} {hunk : Hunk} {hash : Option Bytes}
    {part : PatchMutationPart} {rest : List PatchMutationPart} (h : parsePatchFile file = .ok parts)
    (hmem : .fileCreation path mode (some hunk) hash ∈ parts) (hparts : hunk.parts = part :: rest) :
    createdContents hunk = .ok (fileText part.noNewlineAtEndOfFile part.lines) := by
  have hlines := (accepted_of_parsePatchFile h _ hmem hunk (Option.mem_toList.2 rfl)).1.lines
  exact createdContents_ok hparts (hlines part (hparts ▸ List.mem_cons_self))

def newLines : Hunk := ⟨⟨⟨1, 0⟩, ⟨1, 2⟩⟩, [⟨.insertion, [ascii "y", ascii "z"], true⟩]⟩

theorem createdContents_parsed_newLines : createdContents newLines = .ok (ascii "y\nz") :=
  createdContents_parsed (show parsePatchFile
      (ascii "diff --git a/a b/a\nnew file mode 100644\n@@ -0,0 +1,2 @@\n+y\n+z\n\\ No newline at end of file") =
    .ok [.fileCreation (ascii "a") .nonExecutable (some newLines) none] by decide +kernel) List.mem_cons_self rfl

/-! ### Where a hunk is -/

/-- What parts make of the lines that they are about -/
def replaced : List PatchMutationPart → List Bytes → List Bytes
  | [], old => old
  | part :: parts, old =>
    match part.ty with
    | .context => old.take part.lines.length ++ replaced parts (old.drop part.lines.length)
    | .insertion => part.lines ++ replaced parts old
    | .deletion => replaced parts (old.drop part.lines.length)

/-- A hunk replaces its lines where it starts. -/
theorem applyParts_replaced : ∀ {parts : List PatchMutationPart} {done old post : List Bytes},
    (∀ part ∈ parts, part.noNewlineAtEndOfFile = false) → old.length = originalLength parts →
    applyParts done.length (done ++ old ++ post) parts = .ok (some (done ++ replaced parts old ++ post))
  | [], _, _, _, _, _ => rfl
  | ⟨ty, new, noNewline⟩ :: parts, done, old, post, hparts, hold => by
    obtain rfl : noNewline = false := hparts _ List.mem_cons_self
    have hrest := fun part h => hparts part (List.mem_cons_of_mem _ h)
    cases ty with
    | context =>
      have hlength : new.length ≤ old.length ∧ (old.drop new.length).length = originalLength parts := by
        simp [hold, originalLength]
      have ih := @applyParts_replaced parts (done ++ old.take new.length) _ post hrest hlength.2
      rw [List.length_append, List.length_take_of_le hlength.1] at ih
      have hroom : ¬(done ++ old ++ post).length < done.length + new.length := by simp; omega
      simp only [applyParts, applyPart, replaced, if_neg hroom, bind, Except.bind]
      simpa using ih
    | insertion =>
      have ih := @applyParts_replaced parts (done ++ new) _ post hrest (by simpa [originalLength] using hold)
      have hroom : ¬(done ++ old ++ post).length < done.length := by simp
      simp only [applyParts, applyPart, spliceLines, replaced, if_neg hroom, bind, Except.bind]
      simpa using ih
    | deletion =>
      have hlength : new.length ≤ old.length ∧ (old.drop new.length).length = originalLength parts := by
        simp [hold, originalLength]
      have ih := @applyParts_replaced parts done _ post hrest hlength.2
      have hroom : ¬(done ++ old ++ post).length < done.length + new.length := by simp; omega
      have hsplice := And.intro (Nat.le_add_right done.length new.length) (Nat.not_lt.1 hroom)
      simp only [applyParts, applyPart, spliceLines, replaced, if_neg hroom, if_pos hsplice, bind, Except.bind]
      simpa [List.drop_append_of_le_length hlength.1] using ih

/-- Lines that a hunk is about, behind some that it leaves as they are -/
structure Cut where
  gap : List Bytes
  old : List Bytes
  hunk : Hunk

/-- Hunks that start where their lines are, counted behind the hunks before, and that are as long as these -/
def Fits (n : Nat) : List Cut → Prop
  | [] => True
  | c :: cuts =>
    (c.hunk.header.patched.start = n + c.gap.length + 1 ∧ c.old.length = originalLength c.hunk.parts ∧
      ∀ part ∈ c.hunk.parts, part.noNewlineAtEndOfFile = false) ∧
      Fits (n + c.gap.length + (replaced c.hunk.parts c.old).length) cuts

theorem applyHunks_cuts {done rest : List Bytes} {cuts : List Cut} (h : Fits done.length cuts) :
    applyHunks (done ++ cuts.flatMap (fun c => c.gap ++ c.old) ++ rest) (cuts.map Cut.hunk) =
      .ok (some (done ++ cuts.flatMap (fun c => c.gap ++ replaced c.hunk.parts c.old) ++ rest)) := by
  induction cuts generalizing done with
  | nil => rfl
  | cons c cuts ih =>
    obtain ⟨⟨hstart, hold, hparts⟩, hrest⟩ := h
    have ih := @ih (done ++ c.gap ++ replaced c.hunk.parts c.old) (by simpa [Nat.add_assoc] using hrest)
    have happlied := @applyParts_replaced _ (done ++ c.gap) _ (cuts.flatMap (fun c => c.gap ++ c.old) ++ rest) hparts hold
    rw [List.map_cons, applyHunks, subFrom_ok (by omega), hstart, Nat.add_sub_cancel]
    have hroom : ¬(done ++ (c :: cuts).flatMap (fun c => c.gap ++ c.old) ++ rest).length < done.length + c.gap.length := by
      simp
    simp only [bind, Except.bind, if_neg hroom]
    simp at happlied ih ⊢
    rw [happlied]
    exact ih

/-- The lines that the hunks are about are enough for the count. -/
theorem linesCount_cuts {n start : Nat} {cuts : List Cut} (h : Fits start cuts)
    (hlength : ∀ c ∈ cuts, c.hunk.verifyIntegrity = true) (hn : (cuts.flatMap fun c => c.gap ++ c.old).length ≤ n) :
    ∃ m, linesCount (cuts.map Cut.hunk) n = .ok m := by
  induction cuts generalizing n start with
  | nil => exact ⟨n, rfl⟩
  | cons c cuts ih =>
    obtain ⟨⟨-, hold, hparts⟩, hrest⟩ := h
    have hlengths := hlength c List.mem_cons_self
    simp only [Hunk.verifyIntegrity, Bool.and_eq_true, decide_eq_true_eq] at hlengths
    rw [List.flatMap_cons, List.length_append, List.length_append, hold, hlengths.1] at hn
    have hcount : ∀ (parts : List PatchMutationPart) (k : Nat), (∀ part ∈ parts, part.noNewlineAtEndOfFile = false) →
        parts.foldlM countPart k = .ok k := by
      intro parts k hparts
      induction parts with
      | nil => rfl
      | cons part parts ih =>
        have hpart : countPart k part = .ok k := by
          unfold countPart
          rw [hparts part List.mem_cons_self]
          cases part.ty <;> rfl
        rw [List.foldlM_cons, hpart]
        exact ih fun part' h' => hparts part' (List.mem_cons_of_mem part h')
    have hhunk : countHunk n c.hunk = .ok (n + c.hunk.header.patched.len - c.hunk.header.original.len) := by
      unfold countHunk
      rw [if_pos (by omega)]
      exact hcount _ _ hparts
    obtain ⟨m, hm⟩ := ih hrest (fun c' h' => hlength c' (List.mem_cons_of_mem c h'))
      (show _ ≤ n + c.hunk.header.patched.len - c.hunk.header.original.len by omega)
    refine ⟨m, ?_⟩
    show (c.hunk :: cuts.map Cut.hunk).foldlM countHunk n = _
    rw [List.foldlM_cons, hhunk]
    exact hm

/-- Each hunk replaces its lines, and no other line is changed; nor is any of the file, if the headers have the lengths of
the parts. -/
theorem applyHunks_replaced {done rest : List Bytes} {cuts : List Cut} (h : Fits done.length cuts) :
    applyHunks (done ++ cuts.flatMap (fun c => c.gap ++ c.old) ++ rest) (cuts.map Cut.hunk) =
        .ok (some (done ++ cuts.flatMap (fun c => c.gap ++ replaced c.hunk.parts c.old) ++ rest)) ∧
      ∀ filebuf : Bytes, filebuf.splitOn lineBreak = done ++ cuts.flatMap (fun c => c.gap ++ c.old) ++ rest →
        (∀ c ∈ cuts, c.hunk.verifyIntegrity = true) →
        patchedContents (cuts.map Cut.hunk) filebuf = .ok (some (List.intercalate [lineBreak]
          (done ++ cuts.flatMap (fun c => c.gap ++ replaced c.hunk.parts c.old) ++ rest))) := by
  have happlied := @applyHunks_cuts done rest cuts h
  refine ⟨happlied, fun filebuf hfile hlength => ?_⟩
  have hn : (cuts.flatMap fun c => c.gap ++ c.old).length ≤ (filebuf.splitOn lineBreak).length := by
    rw [hfile, List.length_append, List.length_append]
    omega
  obtain ⟨m, hm⟩ := linesCount_cuts h hlength hn
  unfold patchedContents
  rw [hm, hfile, happlied]
  rfl

def oneLine : Hunk := ⟨⟨⟨1, 1⟩, ⟨1, 1⟩⟩, [⟨.deletion, [ascii "x"], false⟩, ⟨.insertion, [ascii "y"], false⟩]⟩

/-- A line that becomes two, and behind another one a line that gets a third -/
def twoCuts : List Cut :=
  [⟨[], [ascii "x"], ⟨⟨⟨1, 1⟩, ⟨1, 2⟩⟩, [⟨.deletion, [ascii "x"], false⟩, ⟨.insertion, [ascii "y", ascii "y"], false⟩]⟩⟩,
    ⟨[ascii "z"], [ascii "u"], ⟨⟨⟨3, 1⟩, ⟨4, 2⟩⟩, [⟨.context, [ascii "u"], false⟩, ⟨.insertion, [ascii "w"], false⟩]⟩⟩]

theorem applyHunks_replaced_gap :
    applyHunks [ascii "x", ascii "z", ascii "u", ascii "v"] (twoCuts.map Cut.hunk) =
        .ok (some [ascii "y", ascii "y", ascii "z", ascii "u", ascii "w", ascii "v"]) ∧
      patchedContents (twoCuts.map Cut.hunk) (ascii "x\nz\nu\nv") = .ok (some (ascii "y\ny\nz\nu\nw\nv")) := by
  obtain ⟨hlines, hfile⟩ := @applyHunks_replaced [] [ascii "v"] twoCuts
    ⟨⟨rfl, rfl, by decide⟩, ⟨rfl, rfl, by decide⟩, trivial⟩
  exact ⟨hlines, hfile _ (by decide +kernel) (by decide)⟩

/-! ### More turns -/

section
variable {W E α : Type} {sys : Sys W E}

variable {call : Call W E α} {f : α → W → Checked (Outcome W E)} {w : W}

theorem andThen_later {f g : α → W → Checked (Outcome W E)} (h : ∀ a w, Later (f a w) (g a w)) (w : W) :
    Later (andThen call f w) (andThen call g w) := by
  unfold andThen
  rcases call w with ⟨_ | a, w⟩
  · exact .refl _
  · exact h a w

theorem closing_later {a b : Checked (Outcome W E)} (h : Later a b) (fd : Nat) : Later (closing sys fd a) (closing sys fd b) :=
  h.bind fun _ => .refl _

theorem writeAll_later (limit more fd : Nat) (contents : Bytes) (w : W) :
    Later (writeAll sys limit fd contents w) (writeAll sys (limit + more) fd contents w) := loop_later _ limit more _

theorem applyFile_later (limit more : Nat) (w : W) (part : PatchFilePart) :
    Later (applyFile sys limit w part) (applyFile sys (limit + more) w part) := by
  cases part with
  | fileDeletion | fileRename | fileModeChange => exact .refl _
  | fileCreation path mode hunk hash =>
    simp only [applyFile]
    split
    · refine andThen_later (fun fd w => closing_later ?_ fd) w
      cases hunk with
      | none => exact .refl _
      | some hunk => exact (Later.refl _).bind fun contents => writeAll_later limit more fd contents w
    · exact .refl _
  | filePatch path hunks =>
    simp only [applyFile, applyPatch]
    split
    · refine andThen_later (fun original w => (Later.refl _).bind fun patched => ?_) w
      cases patched with
      | none => exact .refl _
      | some contents => exact andThen_later (fun fd w => closing_later (writeAll_later limit more fd contents w) fd) w
    · exact .refl _

/-- More turns of the write loops change no outcome. -/
theorem apply_later (limit more : Nat) (w : W) (parts : List PatchFilePart) :
    Later (apply sys limit w parts) (apply sys (limit + more) w parts) := by
  induction parts generalizing w with
  | nil => exact .refl _
  | cons part parts ih =>
    refine (applyFile_later limit more w part).bind fun outcome => ?_
    rcases outcome with ⟨_ | err, w⟩
    · exact ih w
    · exact .refl _

/-! ### No panic -/

theorem andThen_noFault :
    NoFault (andThen call f w) ↔ ∀ a w', call w = (.ok a, w') → NoFault (f a w') := by
  unfold andThen
  rcases call w with ⟨err | a, w⟩
  · constructor
    · intro h a w' heq
      cases heq
    · exact fun _ => noFault_ok _
  · constructor
    · intro h a' w' heq
      cases heq
      exact h
    · exact fun h => h a w rfl

theorem closing_noFault {fd : Nat} {outcome : Checked (Outcome W E)} : NoFault (closing sys fd outcome) ↔ NoFault outcome := by
  cases outcome with
  | error fault => exact .rfl
  | ok outcome => exact ⟨fun _ => noFault_ok _, fun _ => noFault_ok _⟩

/-- A turn is never past the end of the contents. -/
theorem writeTurn_returns (fd : Nat) (contents : Bytes) (s : Nat × W) (h : s.1 ≤ contents.length) :
    Returns (writeTurn sys fd contents s) (Turn.All (fun s' => s'.1 ≤ contents.length ∧
      ∃ n, sys.write fd (contents.drop s.1) s.2 = (.ok n, s'.2) ∧ s'.1 = s.1 + n ∧ contents.drop s.1 ≠ []) fun _ => True) := by
  unfold writeTurn
  split
  · rename_i hlt
    rw [sliceFrom_ok h]
    simp only [bind, Except.bind]
    rcases hwrite : sys.write fd (contents.drop s.1) s.2 with ⟨_ | n, w⟩
    · exact .ok trivial
    · have hn := sys.write_le hwrite
      rw [List.length_drop] at hn
      refine .ok ⟨by omega, n, rfl, rfl, ?_⟩
      exact List.ne_nil_of_length_pos (by rw [List.length_drop]; omega)
  · exact .ok trivial

/-- The write loop slices in range, as no write takes more than it is given. -/
theorem writeAll_noFault (limit fd : Nat) (contents : Bytes) (w : W) : NoFault (writeAll sys limit fd contents w) := by
  refine loop_noFault (fun s => s.1 ≤ contents.length) (fun s hs => ?_) limit (Nat.zero_le _)
  refine (writeTurn_returns fd contents s hs).mono fun t ht => ?_
  cases t with
  | next s' => exact ht.1
  | done outcome => trivial

variable (sys) in
/-- What a step needs: a file that is new has a part, or the lines of the file that is there can be counted. -/
def Meets (w : W) : PatchFilePart → Prop
  | .fileCreation path mode (some hunk) _ =>
    isSafePatchPath path = true → ∀ fd w', createFile sys path mode w = (.ok fd, w') → hunk.parts ≠ []
  | .filePatch path hunks _ _ =>
    isSafePatchPath path = true → ∀ stat filebuf w', readOriginal sys (fromVecWithNul path) w = (.ok (stat, filebuf), w') →
      Countable hunks filebuf
  | _ => True

variable (sys) in
/-- Every step has what it needs in the world that it is made in. -/
def Sound : W → List PatchFilePart → Prop
  | _, [] => True
  | w, part :: parts => Meets sys w part ∧ ∀ limit w', applyFile sys limit w part = .ok (none, w') → Sound w' parts

/-- A step is without a fault unless it counts below zero or has no part. -/
theorem applyFile_noFault (limit : Nat) (w : W) {part : PatchFilePart} (h : ∀ hunk ∈ part.hunks, hunk.Accepted) :
    NoFault (applyFile sys limit w part) ↔ Meets sys w part := by
  have hsafe : ∀ {safe : Bool} {a : Checked (Outcome W E)} {err : E},
      NoFault (if safe then a else stop (some err) w) ↔ (safe = true → NoFault a) := by
    intro safe a err
    cases safe with
    | true => exact ⟨fun ha _ => ha, fun ha => ha rfl⟩
    | false => exact ⟨fun _ hfalse => (nomatch hfalse), fun _ => noFault_ok _⟩
  cases part with
  | fileDeletion | fileModeChange =>
    refine iff_of_true (hsafe.2 fun _ => ?_) trivial
    exact andThen_noFault.2 fun _ _ _ => noFault_ok _
  | fileRename fromPath toPath =>
    refine iff_of_true (hsafe.2 fun _ => ?_) trivial
    exact andThen_noFault.2 fun _ _ _ => andThen_noFault.2 fun _ _ _ => noFault_ok _
  | fileCreation path mode hunk hash =>
    refine hsafe.trans ?_
    cases hunk with
    | none =>
      refine iff_of_true (fun _ => ?_) trivial
      exact andThen_noFault.2 fun _ _ _ => closing_noFault.2 (noFault_ok _)
    | some hunk =>
      refine imp_congr_right fun _ => andThen_noFault.trans ?_
      refine forall_congr' fun fd => forall_congr' fun w' => imp_congr_right fun _ => closing_noFault.trans ?_
      have hlines := (h hunk (Option.mem_toList.2 rfl)).1.lines
      cases hparts : hunk.parts with
      | nil =>
        refine iff_of_false (fun hnone => ?_) fun hne => hne rfl
        have hindex : createdContents hunk = .error .index := by
          unfold createdContents
          rw [hparts]
          rfl
        cases hnone .index (by simp only [hindex]; rfl)
      | cons part parts =>
        refine iff_of_true ?_ (List.cons_ne_nil _ _)
        simp only [createdContents_ok hparts (hlines part (hparts ▸ List.mem_cons_self))]
        exact writeAll_noFault limit fd _ w'
  | filePatch path hunks beforeHash afterHash =>
    refine hsafe.trans (imp_congr_right fun _ => andThen_noFault.trans ?_)
    rw [Prod.forall]
    refine forall_congr' fun stat => forall_congr' fun filebuf => forall_congr' fun w' => imp_congr_right fun _ => ?_
    rw [← patchedContents_noFault (show ∀ hunk ∈ hunks, hunk.Accepted from h)]
    cases patchedContents hunks filebuf with
    | error fault => exact Iff.trans noFault_error noFault_error.symm
    | ok patched =>
      refine iff_of_true ?_ (noFault_ok _)
      cases patched with
      | none => exact noFault_ok _
      | some contents => exact andThen_noFault.2 fun fd w _ => closing_noFault.2 (writeAll_noFault limit fd contents w)

/-- A write that has no error takes a byte at least, if there is one. -/
def Sys.Progresses (sys : Sys W E) : Prop :=
  ∀ fd bytes w n w', bytes ≠ [] → sys.write fd bytes w = (.ok n, w') → 0 < n

/-- Where writes take something the loop ends. -/
theorem writeAll_ends (hsys : sys.Progresses) (fd : Nat) (contents : Bytes) (w : W) :
    ∃ outcome, writeAll sys (contents.length + 1) fd contents w = .ok outcome := by
  have hturn : ∀ s : Nat × W, s.1 ≤ contents.length → Returns (writeTurn sys fd contents s)
      (Turn.All (fun s' => s'.1 ≤ contents.length ∧ contents.length - s'.1 < contents.length - s.1) fun _ => True) := by
    intro s hs
    refine (writeTurn_returns fd contents s hs).mono fun t ht => ?_
    cases t with
    | next s' =>
      obtain ⟨hle, n, hwrite, hnext, hrest⟩ := ht
      have hn := hsys _ _ _ _ _ hrest hwrite
      exact ⟨hle, by omega⟩
    | done outcome => trivial
  obtain ⟨outcome, houtcome, -⟩ := loop_returns (fun s : Nat × W => s.1 ≤ contents.length) (fun s => contents.length - s.1)
    hturn (n := contents.length + 1) (s := (0, w)) (Nat.zero_le _) (Nat.lt_succ_of_le (Nat.sub_le ..))
  exact ⟨outcome, houtcome⟩

theorem closing_ends (hsys : sys.Progresses) (fd : Nat) (contents : Bytes) (w : W) :
    ∃ limit outcome, closing sys fd (writeAll sys limit fd contents w) = .ok outcome := by
  obtain ⟨outcome, houtcome⟩ := writeAll_ends hsys fd contents w
  exact ⟨contents.length + 1, (outcome.1, sys.close fd outcome.2), by rw [houtcome]; rfl⟩

theorem andThen_ends {f : Nat → α → W → Checked (Outcome W E)}
    (h : ∀ a w', call w = (.ok a, w') → ∃ limit outcome, f limit a w' = .ok outcome) :
    ∃ limit outcome, andThen call (f limit) w = .ok outcome := by
  unfold andThen
  rcases hcall : call w with ⟨err | a, w'⟩
  · exact ⟨0, _, rfl⟩
  · exact h a w' hcall

/-- A step that has what it needs ends, if the writes do. -/
theorem applyFile_ends (hsys : sys.Progresses) {part : PatchFilePart} (h : ∀ hunk ∈ part.hunks, hunk.Accepted)
    (hmeets : Meets sys w part) : ∃ limit outcome, applyFile sys limit w part = .ok outcome := by
  have hsafe : ∀ {safe : Bool} {a : Nat → Checked (Outcome W E)} {err : E}, (safe = true → ∃ limit outcome, a limit = .ok outcome) →
      ∃ limit outcome, (if safe then a limit else stop (some err) w) = .ok outcome := by
    intro safe a err ha
    cases safe with
    | true => exact ha rfl
    | false => exact ⟨0, _, rfl⟩
  cases part with
  | fileDeletion | fileModeChange => exact hsafe fun _ => andThen_ends fun _ _ _ => ⟨0, _, rfl⟩
  | fileRename fromPath toPath => exact hsafe fun _ => andThen_ends fun _ _ _ => andThen_ends fun _ _ _ => ⟨0, _, rfl⟩
  | fileCreation path mode hunk hash =>
    refine hsafe fun hpath => andThen_ends fun fd w' hcreated => ?_
    cases hunk with
    | none => exact ⟨0, _, rfl⟩
    | some hunk =>
      obtain ⟨part, parts, hparts⟩ := List.exists_cons_of_ne_nil (hmeets hpath fd w' hcreated)
      have hlines := (h hunk (Option.mem_toList.2 rfl)).1.lines part (hparts ▸ List.mem_cons_self)
      simp only [createdContents_ok hparts hlines]
      exact closing_ends hsys fd _ w'
  | filePatch path hunks beforeHash afterHash =>
    refine hsafe fun hpath => andThen_ends fun original w' hread => ?_
    obtain ⟨patched, hpatched⟩ :=
      (patchedContents_returns (show ∀ hunk ∈ hunks, hunk.Accepted from h) _).2 (hmeets hpath _ _ w' hread)
    simp only [hpatched]
    cases patched with
    | none => exact ⟨0, _, rfl⟩
    | some contents => exact andThen_ends fun fd w _ => closing_ends hsys fd contents w

/-! ### All parts -/

variable (sys) in
/-- Applying a patch that was accepted does not panic, however many turns its loops take, exactly if every step that it
comes to has what it needs; and then it ends, if no write goes on without taking anything. -/
theorem apply_returns {file : Bytes} {parts : List PatchFilePart} (h : parsePatchFile file = .ok parts) (w : W) :
    ((∀ limit, NoFault (apply sys limit w parts)) ↔ Sound sys w parts) ∧
      (sys.Progresses → Sound sys w parts → ∃ limit outcome, apply sys limit w parts = .ok outcome) := by
  have hparts := accepted_of_parsePatchFile h
  clear h
  induction parts generalizing w with
  | nil => exact ⟨iff_of_true (fun _ => noFault_ok _) trivial, fun _ _ => ⟨0, _, rfl⟩⟩
  | cons part parts ih =>
    have hpart := hparts part List.mem_cons_self
    have ih := fun w => ih w fun part' h => hparts part' (List.mem_cons_of_mem part h)
    have hnext : ∀ {limit w'}, applyFile sys limit w part = .ok (none, w') →
        apply sys limit w (part :: parts) = apply sys limit w' parts := by
      intro limit w' hfile
      rw [apply, hfile]
      rfl
    refine ⟨⟨fun hall => ⟨?_, fun limit w' hfile => (ih w').1.1 fun more => ?_⟩, fun hsound limit => ?_⟩, fun hsys hsound => ?_⟩
    · -- a fault of the first step would be one of the whole
      refine (applyFile_noFault 0 w hpart).1 fun fault hfault => hall 0 fault ?_
      rw [apply, hfault]
      rfl
    · -- as many turns as both need
      have hsame := (applyFile_later limit more w part).resolve_left (by rw [hfile]; exact nofun)
      have hmore := hall (limit + more)
      rw [hnext (hsame ▸ hfile)] at hmore
      exact hmore.of_later (Nat.add_comm more limit ▸ apply_later more limit w' parts)
    · cases hfile : applyFile sys limit w part with
      | error fault =>
        have hfuel := (applyFile_noFault limit w hpart).2 hsound.1 fault hfile
        rw [apply, hfile]
        exact noFault_error.2 hfuel
      | ok outcome =>
        rcases outcome with ⟨err | err, w'⟩
        · rw [hnext hfile]
          exact (ih w').1.2 (hsound.2 limit w' hfile) limit
        · rw [apply, hfile]
          exact noFault_ok _
    · obtain ⟨limit, outcome, hfile⟩ := applyFile_ends hsys hpart hsound.1
      rcases outcome with ⟨err | err, w'⟩
      · obtain ⟨more, outcome, happly⟩ := (ih w').2 hsys (hsound.2 limit w' hfile)
        have hsame := (applyFile_later limit more w part).resolve_left (by rw [hfile]; exact nofun)
        have hlater := (apply_later more limit w' parts).resolve_left (by rw [happly]; exact nofun)
        refine ⟨limit + more, outcome, ?_⟩
        rw [hnext (hsame ▸ hfile), Nat.add_comm, ← hlater]
        exact happly
      · exact ⟨limit, (some err, w'), by rw [apply, hfile]; rfl⟩

end

/-- A system that knows one file, and takes one byte at a time -/
def oneFile : Sys Bytes Unit where
  einval _ := ()
  unlinkat _ _ := (.ok (), [])
  renameat _ _ w := (.ok (), w)
  mkdirRecursiveAtMode _ _ w := (.ok (), w)
  openat _ _ _ := (.ok 3, [])
  write _ bytes w := (.ok (bytes.take 1).length, w ++ bytes.take 1)
  close _ w := w
  fchmodat _ _ w := (.ok (), w)
  fstatat _ w := (.ok ⟨0o644, w.length⟩, w)
  readFrom _ w := (.ok w, w)
  write_le := by
    intro fd bytes w n w' h
    cases h
    exact List.length_take_le' 1 bytes

theorem apply_returns_oneLine :
    ((∀ limit, NoFault (apply oneFile limit (ascii "x\nz") [.filePatch (ascii "a") [oneLine] none none])) ↔
        Sound oneFile (ascii "x\nz") [.filePatch (ascii "a") [oneLine] none none]) ∧
      (oneFile.Progresses → Sound oneFile (ascii "x\nz") [.filePatch (ascii "a") [oneLine] none none] →
        ∃ limit outcome, apply oneFile limit (ascii "x\nz") [.filePatch (ascii "a") [oneLine] none none] = .ok outcome) :=
  apply_returns oneFile (show parsePatchFile (ascii "diff --git a/a b/a\n@@ -1 +1 @@\n-x\n+y") = _ by decide +kernel) _

example : apply oneFile 4 (ascii "x\nz") [.filePatch (ascii "a") [oneLine] none none] = .ok (none, ascii "y\nz") := by
  decide +kernel

end Funbun.Patch
