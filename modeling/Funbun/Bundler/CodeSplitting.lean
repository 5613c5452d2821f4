import Funbun.Bundler.TreeShakingProofs
import Funbun.Library.Distance
import Funbun.Library.Loop
import Mathlib.Data.Nat.Find

/-! Code splitting: which entry points reach which files.

Every entry point walks the live files behind it and sets its bit in their `entry_bits`. A file
that was walked before is walked again when the way to it is shorter. -/
namespace Funbun.Bundler.CodeSplitting
open Library TreeShaking

/-- What tree shaking leaves to the linker: the entry points are live, and so is nothing that is
not reachable. `isBrowserTarget` is for a file; a server build with HTML imports can have some. -/
structure Linker where
  graph : Graph
  codeSplitting : Bool
  entryPoints : List Nat
  filesLive : Finset Nat
  reachableFiles : List Nat
  isBrowserTarget : Nat → Bool
  couldBeBrowserTargetFromServerBuild : Bool
  entryPoints_live : ∀ i ∈ entryPoints, i ∈ filesLive
  filesLive_valid : ∀ i ∈ filesLive, i < graph.files.length
  filesLive_reachable : ∀ i ∈ filesLive, i ∈ reachableFiles

/-- What tree shaking leaves: its entry points are live, and live files are files. -/
theorem shaken_live {g : Graph} {fuel : Nat} {entryPoints : List Nat} {live : Liveness}
    (h : markEntryPoints g fuel entryPoints (start (seededParts g)) = some live)
    (hvalid : ∀ i ∈ entryPoints, i < g.files.length) :
    (∀ i ∈ entryPoints, i ∈ live.filesLive) ∧ ∀ i ∈ live.filesLive, i < g.files.length := by
  have hmarked := markEntryPoints_spec g fuel entryPoints _ _ h
  constructor
  · intro i hi
    apply Liveness.file_mem_nodes live i |>.mp
    apply hmarked.reached
    simpa [entryNodes] using hi
  · intro i hi
    have hsub : live.nodes ⊆ {n | n ∈ allNodes g entryPoints} := by
      refine hmarked.forced _ ⟨?_, ?_, fun n hn _ => behind_allNodes entryPoints n hn⟩
      · intro n hn
        cases n with
        | file i => simp [start] at hn
        | part d =>
          show Node.part d ∈ allNodes g entryPoints
          have hseeded : d ∈ seededParts g := hn
          simp only [seededParts, Finset.mem_image, List.mem_toFinset, List.mem_filter, List.mem_range] at hseeded
          obtain ⟨i, ⟨hi, hfile⟩, rfl⟩ := hseeded
          rw [List.getElem?_eq_getElem hi] at hfile
          simp only [Bool.and_eq_true, decide_eq_true_eq] at hfile
          exact part_mem_allNodes.mpr ⟨_, List.getElem?_eq_getElem hi, hfile.2⟩
      · intro n hn
        obtain ⟨i, hi, rfl⟩ : ∃ i ∈ entryPoints, n = .file i := by simpa [entryNodes] using hn
        exact file_mem_allNodes.mpr (.inr hi)
    rcases file_mem_allNodes.mp (hsub hi) with hlt | hentry
    · exact hlt
    · exact hvalid i hentry

/-- The linker behind tree shaking. -/
def Linker.shaken (g : Graph) (codeSplitting : Bool) (entryPoints reachableFiles : List Nat)
    (hvalid : ∀ i ∈ entryPoints, i < g.files.length) (fuel : Nat) (live : Liveness)
    (h : markEntryPoints g fuel entryPoints (start (seededParts g)) = some live)
    (hreachable : ∀ i ∈ live.filesLive, i ∈ reachableFiles) : Linker where
  graph := g
  codeSplitting := codeSplitting
  entryPoints := entryPoints
  filesLive := live.filesLive
  reachableFiles := reachableFiles
  isBrowserTarget _ := false
  couldBeBrowserTargetFromServerBuild := false
  entryPoints_live := (shaken_live h hvalid).1
  filesLive_valid := (shaken_live h hvalid).2
  filesLive_reachable := hreachable

/-- `distance_from_entry_point` and `entry_bits`, which go by file. -/
structure Columns where
  distances : Nat → Nat
  entryBits : Nat → Finset Nat

def Columns.init : Columns := ⟨fun _ => UInt32.size - 1, fun _ => ∅⟩

def Columns.setBit (s : Columns) (sourceIndex entryPoint : Nat) : Columns :=
  {s with entryBits := Function.update s.entryBits sourceIndex (insert entryPoint (s.entryBits sourceIndex))}

namespace Linker
variable (l : Linker)

/-- `css_reprs`: a file with a style sheet -/
def hasCss (i : Nat) : Bool := (l.graph.files[i]?).any File.hasCss

def loaderIsHtml (i : Nat) : Bool := (l.graph.files[i]?).any File.loaderIsHtml

def isEntryPoint (i : Nat) : Bool := (l.graph.files[i]?).any fun file => file.entryPointKind.isEntryPoint

/-- A dynamic import of an entry point, which is a chunk of its own. -/
def isExternalDynamicImport (record : ImportRecord) (other sourceIndex : Nat) : Bool :=
  l.codeSplitting && record.kind == .dynamic && l.isEntryPoint other && other != sourceIndex

def visitRecord (mark : Nat → Columns → Option Columns) (sourceIndex : Nat) (s : Columns) (record : ImportRecord) :
    Option Columns :=
  match record.sourceIndex with
  | none => some s
  | some other => if l.isExternalDynamicImport record other sourceIndex then some s else mark other s

def visitDependencies (mark : Nat → Columns → Option Columns) (sourceIndex : Nat) (s : Columns) (part : Part) :
    Option Columns :=
  part.dependencies.foldlM (fun s d => if d.sourceIndex = sourceIndex then some s else mark d.sourceIndex s) s

/-- What is behind a file: a style sheet has no parts. -/
def visitBehind (mark : Nat → Columns → Option Columns) (sourceIndex : Nat) (s : Columns) : Option Columns :=
  match l.graph.files[sourceIndex]? with
  | none => some s
  | some file =>
    (file.importRecords.foldlM (l.visitRecord mark sourceIndex) s).bind fun s =>
      if file.hasCss then some s else file.parts.foldlM (visitDependencies mark sourceIndex) s

/-- `mark_file_reachable_for_code_splitting` -/
def markFileReachable (entryPoint : Nat) : Nat → Nat → Nat → Columns → Option Columns
  | 0, _, _, _ => none
  | fuel + 1, distance, sourceIndex, s =>
    if sourceIndex ∉ l.filesLive then some s
    else
      let traverseAgain := decide (distance < s.distances sourceIndex)
      let s := if traverseAgain then {s with distances := Function.update s.distances sourceIndex distance} else s
      -- don't mark this file more than once
      if entryPoint ∈ s.entryBits sourceIndex ∧ traverseAgain = false then some s
      else
        let s := s.setBit sourceIndex entryPoint
        l.visitBehind (markFileReachable entryPoint fuel (distance + 1)) sourceIndex s

/-- The second half of `tree_shaking_and_code_splitting` -/
def markEntryPointsReachable (fuel : Nat) : Option Columns :=
  l.entryPoints.zipIdx.foldlM (fun s entry => l.markFileReachable entry.2 fuel 0 entry.1 s) .init

/-! ### What a walk marks -/

/-- The live files that a file leads to. -/
def behind (i : Nat) : Set Nat :=
  {j | j ∈ l.filesLive ∧ ∃ file, l.graph.files[i]? = some file ∧
    ((∃ record ∈ file.importRecords, record.sourceIndex = some j ∧ l.isExternalDynamicImport record j i = false) ∨
      file.hasCss = false ∧ ∃ part ∈ file.parts, ∃ d ∈ part.dependencies, d.sourceIndex = j ∧ j ≠ i)}

end Linker

/-- The files an entry point's bit is set for. -/
def Columns.marks (s : Columns) (entryPoint : Nat) : Set Nat := {i | entryPoint ∈ s.entryBits i}

/-- What a walk for one entry point does to the bits of the others, and to the distances. -/
structure Extends (entryPoint : Nat) (s s' : Columns) : Prop where
  others : ∀ e ≠ entryPoint, s'.marks e = s.marks e
  closer : ∀ i, s'.distances i ≤ s.distances i

theorem Extends.refl (entryPoint : Nat) (s : Columns) : Extends entryPoint s s := ⟨fun _ _ => rfl, fun _ => Nat.le_refl _⟩

theorem Extends.trans {entryPoint : Nat} {s₁ s₂ s₃ : Columns} (h : Extends entryPoint s₁ s₂)
    (h' : Extends entryPoint s₂ s₃) : Extends entryPoint s₁ s₃ where
  others e he := (h'.others e he).trans (h.others e he)
  closer i := (h'.closer i).trans (h.closer i)

theorem marks_setBit (s : Columns) (i entryPoint : Nat) :
    (s.setBit i entryPoint).marks entryPoint = insert i (s.marks entryPoint) := by
  ext j
  simp only [Columns.marks, Columns.setBit, Function.update_apply, Set.mem_ofPred_eq, Set.mem_insert_iff]
  by_cases hj : j = i <;> simp [hj]

theorem extends_setBit (s : Columns) (i entryPoint : Nat) : Extends entryPoint s (s.setBit i entryPoint) where
  others e he := by
    ext j
    simp only [Columns.marks, Columns.setBit, Function.update_apply, Set.mem_ofPred_eq]
    by_cases hj : j = i <;> simp [hj, he]
  closer _ := Nat.le_refl _

/-- A shorter way to a file. -/
theorem extends_update {s : Columns} {i distance : Nat} (h : distance < s.distances i) (entryPoint : Nat) :
    Extends entryPoint s {s with distances := Function.update s.distances i distance} where
  others _ _ := rfl
  closer j := by
    show Function.update s.distances i distance j ≤ s.distances j
    rw [Function.update_apply]
    split
    · rename_i hj
      exact hj ▸ h.le
    · exact Nat.le_refl _

/-- What a walk for one entry point owes. -/
structure Walked (l : Linker) (entryPoint : Nat) (targets : Set Nat) (s s' : Columns) : Prop where
  marked : Marking.Revisited l.behind targets (s.marks entryPoint) (s'.marks entryPoint)
  rest : Extends entryPoint s s'

theorem Walked.nothing (l : Linker) (entryPoint : Nat) (s : Columns) : Walked l entryPoint ∅ s s :=
  ⟨.nothing (Set.empty_subset _), .refl entryPoint s⟩

theorem Walked.append {l : Linker} {entryPoint : Nat} {targets targets' : Set Nat} {s₁ s₂ s₃ : Columns}
    (h : Walked l entryPoint targets s₁ s₂) (h' : Walked l entryPoint targets' s₂ s₃) :
    Walked l entryPoint (targets ∪ targets') s₁ s₃ :=
  ⟨h.marked.append h'.marked, h.rest.trans h'.rest⟩

theorem walked_sequential (l : Linker) (entryPoint : Nat) : Marking.Sequential (Walked l entryPoint) where
  nothing := .nothing l entryPoint
  append := .append

namespace Linker
variable (l : Linker) {entryPoint : Nat}

/-- A call that only walks live files. -/
def Marks (entryPoint : Nat) (mark : Nat → Columns → Option Columns) : Prop :=
  ∀ j s s', mark j s = some s' → Walked l entryPoint ({j} ∩ {i | i ∈ l.filesLive}) s s'

variable {i fuel : Nat} {s : Columns}

theorem inter_live (h : i ∈ l.filesLive) : ({i} ∩ {i | i ∈ l.filesLive} : Set Nat) = {i} :=
  Set.inter_eq_left.mpr (Set.singleton_subset_iff.mpr h)

/-- Calls that owe something for the live files that they are for. -/
def Calls (owes : Set Nat → Columns → Columns → Prop) (mark : Nat → Columns → Option Columns) : Prop :=
  ∀ j s s', mark j s = some s' → owes ({j} ∩ {i | i ∈ l.filesLive}) s s'

section
variable {l} {owes : Set Nat → Columns → Columns → Prop} (howes : Marking.Sequential owes)
  {mark : Nat → Columns → Option Columns} {i : Nat} {s s' : Columns} (hmark : l.Calls owes mark)
include howes hmark

theorem visitRecord_spec {record : ImportRecord} (h : l.visitRecord mark i s record = some s') :
    owes {j | j ∈ l.filesLive ∧ record.sourceIndex = some j ∧ l.isExternalDynamicImport record j i = false} s s' := by
  have hskip : (∀ j, record.sourceIndex = some j → l.isExternalDynamicImport record j i = true) → s = s' →
      owes {j | j ∈ l.filesLive ∧ record.sourceIndex = some j ∧ l.isExternalDynamicImport record j i = false} s s' := by
    rintro hnone rfl
    have hempty : {j | j ∈ l.filesLive ∧ record.sourceIndex = some j ∧ l.isExternalDynamicImport record j i = false} = ∅ := by
      ext j
      simp only [Set.mem_ofPred_eq, Set.mem_empty_iff_false, iff_false]
      rintro ⟨-, hj, hinternal⟩
      rw [hnone j hj] at hinternal
      cases hinternal
    rw [hempty]
    exact howes.nothing s
  rw [visitRecord] at h
  split at h
  · rename_i hrecord
    apply hskip _ (Option.some.inj h)
    intro j hj
    rw [hrecord] at hj
    cases hj
  · rename_i other hrecord
    split at h
    · rename_i hexternal
      apply hskip _ (Option.some.inj h)
      intro j hj
      cases hrecord.symm.trans hj
      exact hexternal
    · rename_i hinternal
      have htargets : {j | j ∈ l.filesLive ∧ record.sourceIndex = some j ∧ l.isExternalDynamicImport record j i = false} =
          {other} ∩ {i | i ∈ l.filesLive} := by
        ext j
        simp only [hrecord, Set.mem_inter_iff, Set.mem_singleton_iff, Set.mem_ofPred_eq, Option.some.injEq]
        constructor
        · rintro ⟨hlive, rfl, -⟩
          exact ⟨rfl, hlive⟩
        · rintro ⟨rfl, hlive⟩
          exact ⟨hlive, rfl, Bool.eq_false_of_not_eq_true hinternal⟩
      rw [htargets]
      exact hmark other s s' h

theorem visitDependencies_spec {part : Part} (h : visitDependencies mark i s part = some s') :
    owes {j | j ∈ l.filesLive ∧ ∃ d ∈ part.dependencies, d.sourceIndex = j ∧ j ≠ i} s s' := by
  have htargets : {j | j ∈ l.filesLive ∧ ∃ d ∈ part.dependencies, d.sourceIndex = j ∧ j ≠ i} =
      ⋃ d ∈ part.dependencies, {j | j ∈ l.filesLive ∧ d.sourceIndex = j ∧ j ≠ i} := by
    ext j
    simp only [Set.mem_iUnion, Set.mem_ofPred_eq]
    constructor
    · rintro ⟨hlive, d, hd, hj⟩
      exact ⟨d, hd, hlive, hj⟩
    · rintro ⟨d, hd, hlive, hj⟩
      exact ⟨hlive, d, hd, hj⟩
  rw [htargets]
  refine howes.foldlM _ part.dependencies (fun d _ s s' hstep => ?_) h
  split at hstep
  · rename_i hown
    cases hstep
    have hempty : {j | j ∈ l.filesLive ∧ d.sourceIndex = j ∧ j ≠ i} = ∅ := by
      ext j
      simp only [Set.mem_ofPred_eq, Set.mem_empty_iff_false, iff_false]
      rintro ⟨-, hj, hne⟩
      exact hne (hj.symm.trans hown)
    rw [hempty]
    exact howes.nothing s
  · rename_i hother
    have htarget : {j | j ∈ l.filesLive ∧ d.sourceIndex = j ∧ j ≠ i} = {d.sourceIndex} ∩ {i | i ∈ l.filesLive} := by
      ext j
      simp only [Set.mem_inter_iff, Set.mem_singleton_iff, Set.mem_ofPred_eq]
      constructor
      · rintro ⟨hlive, rfl, -⟩
        exact ⟨rfl, hlive⟩
      · rintro ⟨rfl, hlive⟩
        exact ⟨hlive, rfl, hother⟩
    rw [htarget]
    exact hmark _ _ _ hstep

theorem visitBehind_spec (h : l.visitBehind mark i s = some s') : owes (l.behind i) s s' := by
  rw [visitBehind] at h
  split at h
  · rename_i hfile
    cases h
    have hempty : l.behind i = ∅ := by
      ext j
      simp [behind, hfile]
    rw [hempty]
    exact howes.nothing s
  · rename_i file hfile
    obtain ⟨mid, hrecords, hparts⟩ := Option.bind_eq_some_iff.mp h
    have hwalked := howes.foldlM _ _ (fun record _ s s' hstep => visitRecord_spec howes hmark hstep) hrecords
    split at hparts
    · rename_i hcss
      cases hparts
      have htargets : l.behind i = ⋃ record ∈ file.importRecords,
          {j | j ∈ l.filesLive ∧ record.sourceIndex = some j ∧ l.isExternalDynamicImport record j i = false} := by
        ext j
        simp only [behind, Set.mem_iUnion, Set.mem_ofPred_eq, hfile]
        constructor
        · rintro ⟨hlive, file', heq, ⟨record, hrecord, hj⟩ | ⟨hnone, -⟩⟩
          · cases heq
            exact ⟨record, hrecord, hlive, hj⟩
          · cases heq
            rw [hcss] at hnone
            cases hnone
        · rintro ⟨record, hrecord, hlive, hj⟩
          exact ⟨hlive, file, rfl, .inl ⟨record, hrecord, hj⟩⟩
      rw [htargets]
      exact hwalked
    · rename_i hcss
      have hwalked' := howes.foldlM _ _ (fun part _ s s' hstep => visitDependencies_spec howes hmark hstep) hparts
      have htargets : l.behind i = (⋃ record ∈ file.importRecords,
          {j | j ∈ l.filesLive ∧ record.sourceIndex = some j ∧ l.isExternalDynamicImport record j i = false}) ∪
            ⋃ part ∈ file.parts, {j | j ∈ l.filesLive ∧ ∃ d ∈ part.dependencies, d.sourceIndex = j ∧ j ≠ i} := by
        ext j
        simp only [behind, Set.mem_union, Set.mem_iUnion, Set.mem_ofPred_eq, hfile]
        constructor
        · rintro ⟨hlive, file', heq, ⟨record, hrecord, hj⟩ | ⟨-, part, hpart, hj⟩⟩
          · cases heq
            exact .inl ⟨record, hrecord, hlive, hj⟩
          · cases heq
            exact .inr ⟨part, hpart, hlive, hj⟩
        · rintro (⟨record, hrecord, hlive, hj⟩ | ⟨part, hpart, hlive, hj⟩)
          · exact ⟨hlive, file, rfl, .inl ⟨record, hrecord, hj⟩⟩
          · exact ⟨hlive, file, rfl, .inr ⟨Bool.eq_false_of_not_eq_true hcss, part, hpart, hj⟩⟩
      rw [htargets]
      exact howes.append hwalked hwalked'

end

/-- The files that a call on a way of this length has nothing to do at. -/
def settled (entryPoint distance : Nat) (s : Columns) : Set Nat :=
  {i | entryPoint ∈ s.entryBits i ∧ s.distances i ≤ distance}

/-- Elsewhere it marks the file and goes on behind it. -/
theorem markFileReachable_cases (distance i : Nat) (s : Columns) :
    (i ∉ l.filesLive ∨ i ∈ settled entryPoint distance s) ∧
        (∀ fuel, l.markFileReachable entryPoint (fuel + 1) distance i s = some s) ∨
      i ∈ l.filesLive ∧ i ∉ settled entryPoint distance s ∧ ∃ s₁, Extends entryPoint s s₁ ∧
        s₁.marks entryPoint = insert i (s.marks entryPoint) ∧
        s₁.distances = Function.update s.distances i (min distance (s.distances i)) ∧
          ∀ fuel, l.markFileReachable entryPoint (fuel + 1) distance i s =
            l.visitBehind (l.markFileReachable entryPoint fuel (distance + 1)) i s₁ := by
  by_cases hlive : i ∈ l.filesLive
  · by_cases hcloser : distance < s.distances i
    · refine .inr ⟨hlive, fun hsettled => absurd hcloser (Nat.not_lt.mpr hsettled.2), _,
        (extends_update hcloser entryPoint).trans (extends_setBit _ i entryPoint), marks_setBit _ i entryPoint, ?_, ?_⟩
      · show Function.update s.distances i distance = _
        rw [Nat.min_eq_left hcloser.le]
      · intro fuel
        simp [markFileReachable, hlive, hcloser]
    · by_cases hmarked : entryPoint ∈ s.entryBits i
      · refine .inl ⟨.inr ⟨hmarked, Nat.le_of_not_lt hcloser⟩, fun fuel => ?_⟩
        simp [markFileReachable, hlive, hcloser, hmarked]
      · refine .inr ⟨hlive, fun hsettled => hmarked hsettled.1, _, extends_setBit s i entryPoint,
          marks_setBit s i entryPoint, ?_, fun fuel => ?_⟩
        · show s.distances = _
          rw [Nat.min_eq_right (Nat.le_of_not_lt hcloser), Function.update_eq_self]
        · simp [markFileReachable, hlive, hcloser, hmarked]
  · refine .inl ⟨.inl hlive, fun fuel => ?_⟩
    simp [markFileReachable, hlive]

theorem markFileReachable_spec (fuel distance : Nat) : l.Marks entryPoint (l.markFileReachable entryPoint fuel distance) := by
  induction fuel generalizing distance with
  | zero => exact fun i s s' h => by cases h
  | succ fuel ih =>
    intro i s s' h
    obtain ⟨hdone, heq⟩ | ⟨hlive, -, s₁, hextends, hmarks, -, heq⟩ := l.markFileReachable_cases distance i s
    · rw [heq] at h
      cases h
      refine ⟨.nothing ?_, .refl _ _⟩
      rintro j ⟨rfl, hlive⟩
      exact (hdone.resolve_left (not_not.mpr hlive)).1
    · rw [heq] at h
      obtain ⟨hwalked, hrest⟩ := visitBehind_spec (walked_sequential l entryPoint) (ih (distance + 1)) h
      rw [l.inter_live hlive]
      exact ⟨.explore (hmarks ▸ hwalked), hextends.trans hrest⟩

open Distance in
theorem relaxed_sequential (distance : Nat) :
    Marking.Sequential fun targets (s s' : Columns) => Relaxed l.behind targets distance s.distances s'.distances where
  nothing s := .nothing distance s.distances
  append := .append

open Distance in
/-- A walk lowers the distances behind its target. -/
theorem markFileReachable_relaxed (fuel distance : Nat) :
    l.Calls (fun targets s s' => Relaxed l.behind targets distance s.distances s'.distances)
      (l.markFileReachable entryPoint fuel distance) := by
  induction fuel generalizing distance with
  | zero => exact fun i s s' h => by cases h
  | succ fuel ih =>
    intro i s s' h
    obtain ⟨hdone, heq⟩ | ⟨hlive, -, s₁, -, -, hdistances, heq⟩ := l.markFileReachable_cases distance i s
    · rw [heq] at h
      cases h
      by_cases hlive : i ∈ l.filesLive
      · rw [l.inter_live hlive]
        exact .already (hdone.resolve_left (not_not.mpr hlive)).2
      · have hempty : ({i} ∩ {i | i ∈ l.filesLive} : Set Nat) = ∅ := by
          rw [← Set.disjoint_iff_inter_eq_empty, Set.disjoint_singleton_left]
          exact hlive
        rw [hempty]
        exact .nothing distance s.distances
    · rw [heq] at h
      rw [l.inter_live hlive]
      have hbehind := visitBehind_spec (l.relaxed_sequential (distance + 1)) (ih (distance + 1)) h
      rw [hdistances] at hbehind
      exact .explore hbehind

/-! ### A walk ends

Every file on the way to a call is marked on a way as short as the call's, so it is not walked again. -/

/-- The live files where it has. -/
noncomputable def unsettled (entryPoint distance : Nat) (s : Columns) : Nat :=
  Marking.remaining l.filesLive (settled entryPoint distance s)

theorem unsettled_le {targets : Set Nat} {s s' : Columns} (h : Walked l entryPoint targets s s') (distance : Nat) :
    l.unsettled entryPoint distance s' ≤ l.unsettled entryPoint distance s := by
  apply Marking.remaining_mono
  exact fun i hi => ⟨h.marked.kept hi.1, (h.rest.closer i).trans hi.2⟩

theorem visitBehind_finishes {mark : Nat → Columns → Option Columns} (hmark : l.Marks entryPoint mark) (distance bound : Nat)
    (hcalls : ∀ j s, l.unsettled entryPoint distance s ≤ bound → ∃ s', mark j s = some s') (i : Nat)
    (hs : l.unsettled entryPoint distance s ≤ bound) : ∃ s', l.visitBehind mark i s = some s' := by
  have hcall : ∀ j s, l.unsettled entryPoint distance s ≤ bound → ∃ s', mark j s = some s' ∧
      l.unsettled entryPoint distance s' ≤ l.unsettled entryPoint distance s := by
    intro j s hs
    obtain ⟨s', hstep⟩ := hcalls j s hs
    exact ⟨s', hstep, l.unsettled_le (hmark _ _ _ hstep) distance⟩
  have hrecord : ∀ (record : ImportRecord) s, l.unsettled entryPoint distance s ≤ bound →
      ∃ s', l.visitRecord mark i s record = some s' ∧
        l.unsettled entryPoint distance s' ≤ l.unsettled entryPoint distance s := by
    intro record s hs
    rw [visitRecord]
    split
    · exact ⟨s, rfl, Nat.le_refl _⟩
    · split
      · exact ⟨s, rfl, Nat.le_refl _⟩
      · exact hcall _ s hs
  have hpart : ∀ (part : Part) s, l.unsettled entryPoint distance s ≤ bound →
      ∃ s', visitDependencies mark i s part = some s' ∧
        l.unsettled entryPoint distance s' ≤ l.unsettled entryPoint distance s := by
    intro part s hs
    apply Marking.foldlM_isSome (l.unsettled entryPoint distance) _ part.dependencies bound _ s hs
    intro d _ s hs
    split
    · exact ⟨s, rfl, Nat.le_refl _⟩
    · exact hcall _ s hs
  rw [visitBehind]
  split
  · exact ⟨s, rfl⟩
  · rename_i file _
    obtain ⟨mid, hrecords, hmid⟩ := Marking.foldlM_isSome (l.unsettled entryPoint distance) (l.visitRecord mark i)
      file.importRecords bound (fun record _ => hrecord record) s hs
    rw [hrecords]
    show ∃ s', (if file.hasCss then some mid else file.parts.foldlM (visitDependencies mark i) mid) = some s'
    split
    · exact ⟨mid, rfl⟩
    · obtain ⟨s', hparts, -⟩ := Marking.foldlM_isSome (l.unsettled entryPoint distance) (visitDependencies mark i)
        file.parts bound (fun part _ => hpart part) mid (hmid.trans hs)
      exact ⟨s', hparts⟩

theorem markFileReachable_finishes (entryPoint fuel : Nat) : ∀ distance i s, l.unsettled entryPoint distance s < fuel →
    ∃ s', l.markFileReachable entryPoint fuel distance i s = some s' := by
  induction fuel with
  | zero => exact fun _ _ _ h => absurd h (Nat.not_lt_zero _)
  | succ fuel ih =>
    intro distance i s hfuel
    obtain ⟨-, heq⟩ | ⟨hlive, hfresh, s₁, hextends, hmarks, hdistances, heq⟩ := l.markFileReachable_cases distance i s
    · exact ⟨s, heq fuel⟩
    · rw [heq]
      have hmore : insert i (settled entryPoint distance s) ⊆ settled entryPoint (distance + 1) s₁ := by
        have hkept : s.marks entryPoint ⊆ s₁.marks entryPoint := hmarks ▸ Set.subset_insert _ _
        apply Set.insert_subset
        · have hi : i ∈ s₁.marks entryPoint := hmarks ▸ Set.mem_insert _ _
          refine ⟨hi, ?_⟩
          rw [hdistances, Function.update_self]
          exact (Nat.min_le_left _ _).trans (Nat.le_succ _)
        · exact fun j hj => ⟨hkept hj.1, ((hextends.closer j).trans hj.2).trans (Nat.le_succ _)⟩
      have hless : l.unsettled entryPoint (distance + 1) s₁ < l.unsettled entryPoint distance s :=
        (Marking.remaining_mono _ hmore).trans_lt (Marking.remaining_insert _ hlive hfresh)
      refine l.visitBehind_finishes (l.markFileReachable_spec fuel (distance + 1)) (distance + 1) _
        (fun j s' hs' => ?_) i (Nat.le_refl _)
      exact ih (distance + 1) j s' (by omega)

/-! ### All entry points -/

/-- What a file leads to, through live files. -/
def Reaches : Nat → Nat → Prop := Relation.ReflTransGen fun i j => j ∈ l.behind i

/-- `mark_file_reachable_for_code_splitting` for entry points in any order; each comes with its bit. -/
def markInOrder (fuel : Nat) (order : List (Nat × Nat)) : Option Columns :=
  order.foldlM (fun s entry => l.markFileReachable entry.2 fuel 0 entry.1 s) .init

/-- What the walks for some entry points leave. -/
structure Explored (entries : List (Nat × Nat)) (s : Columns) : Prop where
  bits : ∀ e i, e ∈ s.entryBits i ↔ ∃ entryPoint, (entryPoint, e) ∈ entries ∧ l.Reaches entryPoint i
  distances : Distance.Relaxed l.behind {i | ∃ e, (i, e) ∈ entries} 0 Columns.init.distances s.distances

theorem explored_nil : l.Explored [] .init where
  bits := by simp [Columns.init]
  distances := by
    have hempty : {i : Nat | ∃ e : Nat, (i, e) ∈ ([] : List (Nat × Nat))} = ∅ := by simp
    rw [hempty]
    exact .nothing 0 _

variable {l} in
/-- One more entry point, whose bit is new. -/
theorem Explored.walk {entries : List (Nat × Nat)} {s s' : Columns} (h : l.Explored entries s) {fuel e entryPoint : Nat}
    (hlive : entryPoint ∈ l.filesLive) (hnew : e ∉ entries.map (·.2))
    (hwalk : l.markFileReachable e fuel 0 entryPoint s = some s') : l.Explored (entries ++ [(entryPoint, e)]) s' := by
  have htarget := l.inter_live hlive
  obtain ⟨hmarked, hrest⟩ := l.markFileReachable_spec fuel 0 entryPoint s s' hwalk
  have hrelaxed := l.markFileReachable_relaxed fuel 0 entryPoint s s' hwalk
  constructor
  · intro e' i
    show i ∈ s'.marks e' ↔ _
    simp only [List.mem_append, List.mem_singleton, Prod.mk.injEq]
    by_cases he : e' = e
    · subst he
      have hnone : s.marks e' = ∅ := by
        ext j
        refine ⟨fun hj => ?_, fun hj => hj.elim⟩
        obtain ⟨entryPoint', hmem, -⟩ := (h.bits e' j).mp hj
        exact absurd (List.mem_map_of_mem (f := (·.2)) hmem) hnew
      rw [hnone, htarget] at hmarked
      rw [hmarked.mem_iff]
      constructor
      · exact fun hreach => ⟨entryPoint, .inr ⟨rfl, rfl⟩, hreach⟩
      · rintro ⟨entryPoint', hmem | ⟨rfl, -⟩, hreach⟩
        · exact absurd (List.mem_map_of_mem (f := (·.2)) hmem) hnew
        · exact hreach
    · rw [hrest.others e' he]
      refine (h.bits e' i).trans ?_
      constructor
      · rintro ⟨entryPoint', hmem, hreach⟩
        exact ⟨entryPoint', .inl hmem, hreach⟩
      · rintro ⟨entryPoint', hmem | ⟨-, heq⟩, hreach⟩
        · exact ⟨entryPoint', hmem, hreach⟩
        · exact absurd heq he
  · have htargets : {i | ∃ e', (i, e') ∈ entries ++ [(entryPoint, e)]} =
        {i | ∃ e', (i, e') ∈ entries} ∪ ({entryPoint} ∩ {i | i ∈ l.filesLive}) := by
      rw [htarget]
      ext i
      simp only [List.mem_append, List.mem_singleton, Prod.mk.injEq, Set.mem_union, Set.mem_ofPred_eq, exists_or,
        Set.mem_singleton_iff, exists_and_left, exists_eq, and_true]
    rw [htargets]
    exact h.distances.append hrelaxed

theorem card_filesLive_le : l.filesLive.card ≤ l.graph.files.length := by
  have hsub : l.filesLive ⊆ Finset.range l.graph.files.length := fun i hi => Finset.mem_range.mpr (l.filesLive_valid i hi)
  have hcard := Finset.card_le_card hsub
  rwa [Finset.card_range] at hcard

theorem markInOrder_explored (hfuel : l.graph.files.length < fuel) (order : List (Nat × Nat))
    (hlive : ∀ entry ∈ order, entry.1 ∈ l.filesLive) (hnodup : (order.map (·.2)).Nodup) :
    ∃ s, l.markInOrder fuel order = some s ∧ l.Explored order s := by
  have hcard := l.card_filesLive_le
  induction order using List.reverseRecOn with
  | nil => exact ⟨.init, rfl, l.explored_nil⟩
  | append_singleton entries entry ih =>
    rw [List.map_append, List.nodup_append] at hnodup
    obtain ⟨s, hs, hexplored⟩ := ih (fun entry hentry => hlive entry (List.mem_append_left _ hentry)) hnodup.1
    obtain ⟨s', hwalk⟩ := l.markFileReachable_finishes entry.2 fuel 0 entry.1 s
      (((Marking.remaining_le_card _ _).trans hcard).trans_lt hfuel)
    have hnew : entry.2 ∉ entries.map (·.2) := fun hmem => hnodup.2.2 _ hmem _ List.mem_cons_self rfl
    refine ⟨s', ?_, hexplored.walk (hlive entry (List.mem_append_right _ List.mem_cons_self)) hnew hwalk⟩
    rw [markInOrder, List.foldlM_append]
    show ((l.markInOrder fuel entries).bind fun s => [entry].foldlM _ s) = some s'
    rw [hs]
    show (l.markFileReachable entry.2 fuel 0 entry.1 s).bind some = some s'
    rw [hwalk]
    rfl

/-- Every entry point once, in any order. -/
theorem markInOrder_perm (hfuel : l.graph.files.length < fuel) {order : List (Nat × Nat)}
    (hperm : order.Perm l.entryPoints.zipIdx) : ∃ s, l.markInOrder fuel order = some s ∧ l.Explored l.entryPoints.zipIdx s := by
  have hmem : ∀ entry, entry ∈ order ↔ l.entryPoints[entry.2]? = some entry.1 := by
    intro entry
    rw [hperm.mem_iff, List.mem_zipIdx_iff_getElem?]
  have hnodup : (order.map (·.2)).Nodup := by
    rw [(hperm.map (·.2)).nodup_iff]
    rw [List.zipIdx_map_snd]
    exact List.nodup_range'
  obtain ⟨s, hs, hexplored⟩ := l.markInOrder_explored hfuel order
    (fun entry hentry => l.entryPoints_live _ (List.mem_of_getElem? ((hmem entry).mp hentry))) hnodup
  refine ⟨s, hs, fun e i => (hexplored.bits e i).trans ?_, ?_⟩
  · simp only [hperm.mem_iff]
  · have htargets : {i | ∃ e, (i, e) ∈ l.entryPoints.zipIdx} = {i | ∃ e, (i, e) ∈ order} := by
      simp only [hperm.mem_iff]
    rw [htargets]
    exact hexplored.distances

/-- Every file has the bits of the entry points that reach it. -/
theorem markEntryPointsReachable_spec (hfuel : l.graph.files.length < fuel) :
    ∃ s, l.markEntryPointsReachable fuel = some s ∧
      ∀ e i, e ∈ s.entryBits i ↔ ∃ entryPoint, l.entryPoints[e]? = some entryPoint ∧ l.Reaches entryPoint i := by
  obtain ⟨s, hs, hexplored⟩ := l.markInOrder_perm hfuel (.refl _)
  refine ⟨s, hs, fun e i => (hexplored.bits e i).trans ?_⟩
  simp only [List.mem_zipIdx_iff_getElem?]

/-! ### The distances -/

open Distance

/-- The ways to a file from the entry points. -/
theorem lengths_nonempty_iff : (lengths l.behind {i | i ∈ l.entryPoints} i).Nonempty ↔
    ∃ entryPoint ∈ l.entryPoints, l.Reaches entryPoint i := by
  constructor
  · rintro ⟨n, entryPoint, hentry, hpath⟩
    exact ⟨entryPoint, hentry, exists_path_iff.mp ⟨n, hpath⟩⟩
  · rintro ⟨entryPoint, hentry, hreach⟩
    obtain ⟨n, hpath⟩ := exists_path_iff.mpr hreach
    exact ⟨n, entryPoint, hentry, hpath⟩

theorem mem_filesLive_of_reaches {entryPoint i : Nat} (hentry : entryPoint ∈ l.entryPoints) (h : l.Reaches entryPoint i) :
    i ∈ l.filesLive := by
  cases h with
  | refl => exact l.entryPoints_live _ hentry
  | tail _ hi => exact hi.1

variable {l} in
/-- What the walks for all entry points leave of the distances: indices of files are 32 bits wide. -/
theorem Explored.distance (h : l.Explored l.entryPoints.zipIdx s) (hsize : l.graph.files.length < UInt32.size) (i : Nat) :
    IsLeast (lengths l.behind {i | i ∈ l.entryPoints} i) (s.distances i) ∨
      lengths l.behind {i | i ∈ l.entryPoints} i = ∅ ∧ s.distances i = UInt32.size - 1 := by
  have hsources : {i | ∃ e, (i, e) ∈ l.entryPoints.zipIdx} = {i | i ∈ l.entryPoints} := by
    ext i
    simp only [Set.mem_ofPred_eq]
    rw [List.mem_iff_getElem?]
    exact exists_congr fun e => List.mem_zipIdx_iff_getElem?
  have hdistances := h.distances
  rw [hsources] at hdistances
  rcases Set.eq_empty_or_nonempty (lengths l.behind {i | i ∈ l.entryPoints} i) with hnone | hsome
  · exact .inr ⟨hnone, hdistances.unreached hnone⟩
  · obtain ⟨n, hleast⟩ : ∃ n, IsLeast (lengths l.behind {i | i ∈ l.entryPoints} i) n := by
      classical
      exact ⟨Nat.find hsome, Nat.find_spec hsome, fun m hm => Nat.find_min' hsome hm⟩
    have hcard := lt_card_of_isLeast l.filesLive (fun i m hm => by
      obtain ⟨entryPoint, hentry, hreach⟩ := l.lengths_nonempty_iff.mp ⟨m, hm⟩
      exact l.mem_filesLive_of_reaches hentry hreach) hleast
    have hlive := l.card_filesLive_le
    have hfar : n < UInt32.size - 1 := Nat.lt_sub_of_add_lt (by omega)
    have hequal := hdistances.isLeast hleast hfar
    rw [hequal]
    exact .inl hleast

/-- In any order of the entry points the walks end with the same columns. A file has the bits of the entry points that
reach it, and its distance is that of the nearest. -/
theorem markInOrder_exact (hsize : l.graph.files.length < UInt32.size) :
    ∃ s, (∀ fuel order, l.graph.files.length < fuel → order.Perm l.entryPoints.zipIdx → l.markInOrder fuel order = some s) ∧
      (∀ e i, e ∈ s.entryBits i ↔ ∃ entryPoint, l.entryPoints[e]? = some entryPoint ∧ l.Reaches entryPoint i) ∧
      ∀ i, (∃ entryPoint ∈ l.entryPoints, l.Reaches entryPoint i) →
        IsLeast {n | ∃ entryPoint ∈ l.entryPoints, Path l.behind n entryPoint i} (s.distances i) := by
  obtain ⟨s, -, hs⟩ := l.markInOrder_perm (Nat.lt_succ_self _) (.refl _)
  refine ⟨s, ?_, fun e i => ?_, fun i hi => ?_⟩
  · intro fuel order hfuel hperm
    obtain ⟨s', hs', hexplored⟩ := l.markInOrder_perm hfuel hperm
    have hbits : s'.entryBits = s.entryBits := by
      funext i
      ext e
      rw [hexplored.bits, hs.bits]
    have hdistances : s'.distances = s.distances := by
      funext i
      rcases hexplored.distance hsize i with hleast' | ⟨hnone', hfar'⟩ <;>
        rcases hs.distance hsize i with hleast | ⟨hnone, hfar⟩
      · exact hleast'.unique hleast
      · exact absurd (hnone ▸ hleast'.1) (Set.notMem_empty _)
      · exact absurd (hnone' ▸ hleast.1) (Set.notMem_empty _)
      · rw [hfar', hfar]
    rw [hs']
    exact congrArg some (congrArg₂ Columns.mk hdistances hbits)
  · simp only [hs.bits e i, List.mem_zipIdx_iff_getElem?]
  · rcases hs.distance hsize i with hleast | ⟨hnone, -⟩
    · exact hleast
    · exact absurd (l.lengths_nonempty_iff.mpr hi) (Set.not_nonempty_iff_eq_empty.mpr hnone)

/-! Two entry points that lead to the same file, one of them through another file. -/

def importingFile (kind : ImportKind) (entryPointKind : EntryPointKind) (imports : List Nat) : File where
  parts := []
  importRecords := imports.map fun i => ⟨kind, some i, false⟩
  hasCss := false
  loaderIsHtml := false
  sideEffects := .hasSideEffects
  entryPointKind := entryPointKind
  wrap := .none

def importingLinker (kind : ImportKind) : Linker where
  graph := ⟨[importingFile kind .userSpecified [1], importingFile kind .none [2, 0], importingFile kind .none [],
    importingFile kind .userSpecified [2]], ⟨true, false⟩, by simp [importingFile], by simp [importingFile],
    by simp [importingFile]⟩
  codeSplitting := false
  entryPoints := [0, 3]
  filesLive := {0, 1, 2, 3}
  reachableFiles := [2, 1, 0, 3]
  isBrowserTarget _ := false
  couldBeBrowserTargetFromServerBuild := false
  entryPoints_live := by decide
  filesLive_valid := by simp
  filesLive_reachable := by decide

theorem markInOrder_exact_shared :
    ∃ s, (∀ fuel order, 4 < fuel → order.Perm [(0, 0), (3, 1)] → (importingLinker .stmt).markInOrder fuel order = some s) ∧
      (∀ e i, e ∈ s.entryBits i ↔
        ∃ entryPoint, [0, 3][e]? = some entryPoint ∧ (importingLinker .stmt).Reaches entryPoint i) ∧
      ∀ i, (∃ entryPoint ∈ [0, 3], (importingLinker .stmt).Reaches entryPoint i) →
        IsLeast {n | ∃ entryPoint ∈ [0, 3], Path (importingLinker .stmt).behind n entryPoint i} (s.distances i) :=
  (importingLinker .stmt).markInOrder_exact (by decide)

/-- What a file leads to if no dynamic import counts. -/
def behindStatically (i : Nat) : Set Nat :=
  {j | j ∈ l.filesLive ∧ ∃ file, l.graph.files[i]? = some file ∧
    ((∃ record ∈ file.importRecords, record.sourceIndex = some j ∧ record.kind ≠ .dynamic) ∨
      file.hasCss = false ∧ ∃ part ∈ file.parts, ∃ d ∈ part.dependencies, d.sourceIndex = j ∧ j ≠ i)}

/-- A dynamic import that is not a chunk of its own is followed. -/
theorem markInOrder_dynamic :
    (∃ s, (importingLinker .dynamic).markInOrder 5 [(0, 0), (3, 1)] = some s ∧ 0 ∈ s.entryBits 1) ∧
      ¬Relation.ReflTransGen (fun i j => j ∈ (importingLinker .dynamic).behindStatically i) 0 1 := by
  constructor
  · exact ⟨_, rfl, by decide⟩
  · have hfiles : ∀ file ∈ (importingLinker .dynamic).graph.files,
        file.parts = [] ∧ ∀ record ∈ file.importRecords, record.kind = .dynamic := by decide
    have hnone : ∀ i j, j ∉ (importingLinker .dynamic).behindStatically i := by
      rintro i j ⟨-, file, hfile, ⟨record, hrecord, -, hkind⟩ | ⟨-, part, hpart, -⟩⟩
      · exact hkind ((hfiles file (List.mem_of_getElem? hfile)).2 record hrecord)
      · rw [(hfiles file (List.mem_of_getElem? hfile)).1] at hpart
        cases hpart
    intro hreach
    cases hreach with
    | tail _ hstep => exact hnone _ _ hstep

end Linker

end Funbun.Bundler.CodeSplitting
