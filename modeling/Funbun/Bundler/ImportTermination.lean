import Mathlib.Data.Finset.Range
import Funbun.Library.Loop
import Funbun.Library.Marking
import Funbun.Library.Nesting
import Funbun.Bundler.ImportBinding

/-! When binding imports comes to an end.

Following export stars always does, and so does a chain of imports, since it stops where it meets itself. But a candidate is
followed in a call of its own, which does not know the imports its caller has passed. -/
namespace Funbun.Bundler.ImportBinding
open Library CrossChunk Relation

/-! ### Export stars -/

/-- The files not on the stack. -/
noncomputable def filesLeft (g : Graph) (stack : List SourceIndex) : Nat :=
  Marking.remaining (Finset.range g.files.length) {source | source ∈ stack}

theorem addExport_stack (g : Graph) (stackEndPos : Nat) (target source other : SourceIndex)
    (ctx : ExportStarContext) (entry : Name × NamedExport) :
    (addExport g stackEndPos target source other ctx entry).stack = ctx.stack := by
  unfold addExport
  dsimp only
  split
  · rfl
  split
  · rfl
  split
  · rfl
  · split <;> rfl

theorem foldl_addExport_stack (g : Graph) (stackEndPos : Nat) (target source other : SourceIndex)
    (entries : List (Name × NamedExport)) (ctx : ExportStarContext) :
    (entries.foldl (addExport g stackEndPos target source other) ctx).stack = ctx.stack := by
  induction entries generalizing ctx with
  | nil => rfl
  | cons entry rest ih => rw [List.foldl_cons, ih, addExport_stack]

theorem exportStarTarget?_lt {g : Graph} {source : SourceIndex} {importId : Nat} {other : SourceIndex}
    (h : g.exportStarTarget? source importId = some other) : other < g.files.length := by
  unfold Graph.exportStarTarget? at h
  simp only [Option.bind_eq_bind, Option.bind_eq_some_iff] at h
  obtain ⟨record, -, index, -, h⟩ := h
  split at h
  · cases h
  next hlt =>
    split at h
    · cases h
    · obtain rfl : index = other := Option.some.inj h
      exact Nat.lt_of_not_le hlt

/-- A call of `add_exports` at a file that exists returns, with the stack as it was, if it is
given one unit of fuel for each file not yet on the stack and one more. -/
theorem addExports_returns (g : Graph) (target : SourceIndex) (fuel : Nat) :
    ∀ (source : SourceIndex) (ctx : ExportStarContext), source < g.files.length →
      filesLeft g ctx.stack < fuel →
      ∃ ctx', addExports g fuel target source ctx = some ctx' ∧ ctx'.stack = ctx.stack := by
  induction fuel with
  | zero => exact fun _ _ _ h => absurd h (Nat.not_lt_zero _)
  | succ fuel ih =>
    intro source ctx hsource hfuel
    rw [addExports]
    by_cases hmem : source ∈ ctx.stack
    · exact ⟨ctx, if_pos hmem, rfl⟩
    rw [if_neg hmem]
    have hset : ({s | s ∈ ctx.stack ++ [source]} : Set SourceIndex) = insert source {s | s ∈ ctx.stack} := by
      ext s
      simp [or_comm]
    have hleft : filesLeft g (ctx.stack ++ [source]) < fuel := by
      have hlt : filesLeft g (ctx.stack ++ [source]) < filesLeft g ctx.stack := by
        unfold filesLeft
        rw [hset]
        exact Marking.remaining_insert _ (Finset.mem_range.mpr hsource) hmem
      omega
    -- Each turn of the loop finds and leaves the stack with `source` on top.
    obtain ⟨after, hafter, hstack⟩ := Loop.foldlM_returns
      (f := addExportStar g (addExports g fuel target) (ctx.stack ++ [source]).length target source)
      (g.file source).exportStarImportRecords (fun c => c.stack = ctx.stack ++ [source])
      (fun importId _ c hc => by
        unfold addExportStar
        cases hother : g.exportStarTarget? source importId with
        | none => exact ⟨c, rfl, hc⟩
        | some other =>
          dsimp only
          obtain ⟨c', hc', hstack⟩ := ih other _ (exportStarTarget?_lt hother)
            ((congrArg (filesLeft g) ((foldl_addExport_stack ..).trans hc)).trans_lt hleft)
          exact ⟨c', hc', hstack.trans ((foldl_addExport_stack ..).trans hc)⟩)
      (s := {ctx with stack := ctx.stack ++ [source]}) rfl
    refine ⟨{after with stack := after.stack.take ((ctx.stack ++ [source]).length - 1)}, ?_, ?_⟩
    · exact Option.bind_eq_some_iff.mpr ⟨after, hafter, rfl⟩
    · simp [hstack]

/-- Following the export stars of every file returns, whatever cycles they form. -/
theorem resolveAllExportStars_returns (g : Graph) (reachable : List SourceIndex) (columns : Meta) :
    ∃ columns', resolveAllExportStars g (g.files.length + 1) reachable columns = some columns' := by
  obtain ⟨columns', h, -⟩ := Loop.foldlM_returns
    (f := resolveExportStarStatements g (g.files.length + 1)) reachable (fun _ => True)
    (fun source _ columns _ => by
      unfold resolveExportStarStatements
      by_cases hstars : (g.file source).exportStarImportRecords.length > 0
      · have hsource : source < g.files.length := by
          apply Nat.lt_of_not_le
          intro hle
          have hempty : g.file source = .empty := by
            simp [Graph.file, List.getD_eq_getElem?_getD, List.getElem?_eq_none hle]
          rw [hempty] at hstars
          exact absurd hstars (by decide)
        have hleft : filesLeft g [] < g.files.length + 1 :=
          Nat.lt_succ_of_le ((Marking.remaining_le_card ..).trans (by simp))
        obtain ⟨ctx, hctx, -⟩ := addExports_returns g source _ source ⟨[], columns⟩ hsource hleft
        rw [if_pos hstars, hctx]
        exact ⟨_, rfl, trivial⟩
      · rw [if_neg hstars]
        exact ⟨_, rfl, trivial⟩)
    (s := columns) trivial
  exact ⟨columns', h⟩

/-! ### What a chain of imports does -/

/-- The import that follows `tracker` on its chain. -/
def next? (g : Graph) (m : Meta) (tracker : ImportTracker) : Option ImportTracker :=
  let advanced := advanceImportTracker g m tracker
  if advanced.status = .found ∧ (g.namedImport? advanced.value).isSome then some advanced.value else none

/-- The other exports that one step from `tracker` may have found. -/
def candidates (g : Graph) (m : Meta) (tracker : ImportTracker) : List ImportTracker :=
  let advanced := advanceImportTracker g m tracker
  if advanced.status = .found then advanced.importData.map ImportData.data else []

/-- The chain of imports that begins at `start` comes to `tracker`. -/
def OnChain (g : Graph) (m : Meta) (start tracker : ImportTracker) : Prop :=
  ReflTransGen (fun a b => next? g m a = some b) start tracker

/-- A candidate of some import on the chain from `start` is the import `candidate`. -/
def Spawns (g : Graph) (m : Meta) (start candidate : ImportTracker) : Prop :=
  ∃ tracker, OnChain g m start tracker ∧ candidate ∈ candidates g m tracker ∧
    (g.namedImport? candidate).isSome

/-! ### One turn of the loop -/

/-- What is found is the matching export of the file that the import names. -/
theorem advanceImportTracker_found {g : Graph} {m : Meta} {tracker : ImportTracker}
    (h : (advanceImportTracker g m tracker).status = .found) :
    ∃ namedImport other matching, g.namedImport? tracker = some namedImport ∧
      matchingExport? m other namedImport = some matching ∧
      advanceImportTracker g m tracker =
        ⟨.found, matching.data, matching.potentiallyAmbiguousExportStarRefs⟩ := by
  unfold advanceImportTracker at h ⊢
  cases hni : g.namedImport? tracker with
  | none =>
    rw [hni] at h
    cases h
  | some namedImport =>
    rw [hni] at h
    dsimp only at h ⊢
    split at h
    · cases h
    split at h
    · cases h
    split at h
    · cases h
    next hunused =>
      split at h
      · cases h
      next hdisabled =>
        split at h
        · cases h
        next hlazy =>
          split at h
          · cases h
          next hcjs =>
            split at h
            next matching hmatching =>
              refine ⟨namedImport, _, matching, rfl, hmatching, ?_⟩
              rw [if_neg hunused, if_neg hdisabled, if_neg hlazy, if_neg hcjs]
            · split at h
              · split at h <;> cases h
              · split at h <;> cases h

/-- An export is only found from an import. -/
theorem namedImport?_of_found {g : Graph} {m : Meta} {tracker : ImportTracker}
    (h : (advanceImportTracker g m tracker).status = .found) :
    ∃ namedImport source ref, g.namedImport? tracker = some namedImport ∧
      tracker.sourceIndex = some source ∧ tracker.importRef = some ref := by
  obtain ⟨namedImport, -, -, hni, -, -⟩ := advanceImportTracker_found h
  have hparts := hni
  simp only [Graph.namedImport?, Option.bind_eq_bind, Option.bind_eq_some_iff] at hparts
  obtain ⟨source, hsource, ref, href, -⟩ := hparts
  exact ⟨namedImport, source, ref, hni, hsource, href⟩

section
variable {g : Graph} {m : Meta} {fuel top : Nat} {tracker : ImportTracker}
variable {ambiguousResults : List MatchImport} {result : MatchImport} {s : MatchState}

/-- Every candidate, each in a call that may use `fuel`. -/
def followCandidates (g : Graph) (m : Meta) (fuel : Nat) (refs : List ImportData)
    (found : List MatchImport × MatchState) : Option (List MatchImport × MatchState) :=
  refs.foldlM (followCandidate g fun candidate s =>
    matchLoop g m fuel s.cycleDetector.length candidate [] .default s) found

theorem matchLoop_cut (h : tracker ∈ s.cycleDetector.drop top) :
    matchLoop g m (fuel + 1) top tracker ambiguousResults result s =
      some (finishMatch top ambiguousResults {MatchImport.default with kind := .cycle} s) := by
  rw [matchLoop, if_pos h]

theorem matchLoop_found (h : tracker ∉ s.cycleDetector.drop top)
    (hfound : (advanceImportTracker g m tracker).status = .found) {source : SourceIndex} {ref : Ref}
    (hsource : tracker.sourceIndex = some source) (href : tracker.importRef = some ref) :
    matchLoop g m (fuel + 1) top tracker ambiguousResults result s =
      (followCandidates g m fuel (advanceImportTracker g m tracker).importData
        (ambiguousResults, {s with cycleDetector := s.cycleDetector ++ [tracker]})).bind fun found =>
        match next? g m tracker with
        | some next => matchLoop g m fuel top next found.1 (.normal next) (found.2.dependOn g source ref)
        | none => some (finishMatch top found.1 (.normal (advanceImportTracker g m tracker).value)
            (found.2.dependOn g source ref)) := by
  obtain ⟨namedImport, -, -, hni, -, -⟩ := namedImport?_of_found hfound
  rw [matchLoop, if_neg h, hsource, href, hni]
  dsimp only
  rw [if_pos hfound]
  apply congrArg
  funext found
  unfold next?
  by_cases hnext : (g.namedImport? (advanceImportTracker g m tracker).value).isSome
  · rw [if_pos hnext, if_pos ⟨hfound, hnext⟩]
  · rw [if_neg hnext, if_neg fun hboth => hnext hboth.2]

theorem reportNoMatch_cycleDetector (source : SourceIndex) (ref : Ref) (namedImport : NamedImport)
    (next : SourceIndex) : (reportNoMatch g source ref namedImport next s).cycleDetector = s.cycleDetector := by
  unfold reportNoMatch
  dsimp only
  split <;> rfl

theorem settleImport_cycleDetector (source : SourceIndex) (ref : Ref) (namedImport : NamedImport)
    (advanced : ImportTrackerIterator) :
    (settleImport g source ref namedImport advanced result s).2.cycleDetector = s.cycleDetector := by
  unfold settleImport
  dsimp only
  split
  case h_5 => split <;> rfl
  case h_6 => split <;> rfl
  case h_7 => exact reportNoMatch_cycleDetector ..
  case h_8 => rfl
  case h_9 => rfl
  all_goals
    split
    · rfl
    · dsimp only
      first
      | rfl
      | split <;> rfl

/-- A turn that finds no export ends the loop, whatever fuel is left. -/
theorem matchLoop_stop (ambiguousResults : List MatchImport) (result : MatchImport)
    (h : tracker ∉ s.cycleDetector.drop top) (hfound : (advanceImportTracker g m tracker).status ≠ .found) :
    ∃ result' s', (s'.cycleDetector = s.cycleDetector ∨ s'.cycleDetector = s.cycleDetector ++ [tracker]) ∧
      ∀ fuel, matchLoop g m (fuel + 1) top tracker ambiguousResults result s =
        some (finishMatch top ambiguousResults result' s') := by
  cases hsource : tracker.sourceIndex with
  | none =>
    refine ⟨result, s, .inl rfl, fun fuel => ?_⟩
    rw [matchLoop, if_neg h, hsource]
  | some source =>
    cases href : tracker.importRef with
    | none =>
      refine ⟨result, {s with cycleDetector := s.cycleDetector ++ [tracker]}, .inr rfl, fun fuel => ?_⟩
      rw [matchLoop, if_neg h, hsource, href]
    | some ref =>
      cases hni : g.namedImport? tracker with
      | none =>
        refine ⟨result, {s with cycleDetector := s.cycleDetector ++ [tracker]}, .inr rfl, fun fuel => ?_⟩
        rw [matchLoop, if_neg h, hsource, href, hni]
      | some namedImport =>
        let s' : MatchState := {s with cycleDetector := s.cycleDetector ++ [tracker]}
        let settled := settleImport g source ref namedImport (advanceImportTracker g m tracker) result s'
        refine ⟨settled.1, settled.2, .inr (settleImport_cycleDetector ..), fun fuel => ?_⟩
        rw [matchLoop, if_neg h, hsource, href, hni]
        dsimp only
        rw [if_neg hfound]

/-- The three things a turn of the loop can do. -/
theorem matchLoop_cases {out : MatchImport × MatchState}
    (h : matchLoop g m (fuel + 1) top tracker ambiguousResults result s = some out) :
    (tracker ∈ s.cycleDetector.drop top ∧ out.2.cycleDetector = s.cycleDetector.take top) ∨
    (tracker ∉ s.cycleDetector.drop top ∧ (advanceImportTracker g m tracker).status ≠ .found ∧
      ∃ cycleDetector, (cycleDetector = s.cycleDetector ∨ cycleDetector = s.cycleDetector ++ [tracker]) ∧
        out.2.cycleDetector = cycleDetector.take top) ∨
    (tracker ∉ s.cycleDetector.drop top ∧ (advanceImportTracker g m tracker).status = .found ∧
      ∃ results s', followCandidates g m fuel (advanceImportTracker g m tracker).importData
          (ambiguousResults, {s with cycleDetector := s.cycleDetector ++ [tracker]}) = some (results, s') ∧
        ((next? g m tracker = none ∧ out.2.cycleDetector = s'.cycleDetector.take top) ∨
          ∃ next s'', next? g m tracker = some next ∧ s''.cycleDetector = s'.cycleDetector ∧
            matchLoop g m fuel top next results (.normal next) s'' = some out)) := by
  by_cases hcut : tracker ∈ s.cycleDetector.drop top
  · rw [matchLoop_cut hcut] at h
    obtain rfl := Option.some.inj h
    exact .inl ⟨hcut, rfl⟩
  by_cases hfound : (advanceImportTracker g m tracker).status = .found
  · obtain ⟨-, source, ref, -, hsource, href⟩ := namedImport?_of_found hfound
    rw [matchLoop_found hcut hfound hsource href] at h
    obtain ⟨⟨results, s'⟩, hfollow, h⟩ := Option.bind_eq_some_iff.mp h
    refine .inr (.inr ⟨hcut, hfound, results, s', hfollow, ?_⟩)
    cases hnext : next? g m tracker with
    | none =>
      rw [hnext] at h
      obtain rfl := Option.some.inj h
      exact .inl ⟨rfl, rfl⟩
    | some next =>
      rw [hnext] at h
      exact .inr ⟨next, s'.dependOn g source ref, rfl, rfl, h⟩
  · obtain ⟨result', s', hs', hloop⟩ := matchLoop_stop ambiguousResults result hcut hfound
    rw [hloop] at h
    obtain rfl := Option.some.inj h
    exact .inr (.inl ⟨hcut, hfound, s'.cycleDetector, hs', rfl⟩)

end

/-! ### A whole run -/

section
variable {g : Graph} {m : Meta}

variable {fuel : Nat} {refs : List ImportData} {found found' : List MatchImport × MatchState} {tracker start : ImportTracker}

theorem followCandidates_cycleDetector
    (call : ∀ c s out, matchLoop g m fuel s.cycleDetector.length c [] .default s = some out →
      out.2.cycleDetector = s.cycleDetector)
    (h : followCandidates g m fuel refs found = some found') :
    found'.2.cycleDetector = found.2.cycleDetector := by
  apply Loop.foldlM_keeps (fun f => f.2.cycleDetector = found.2.cycleDetector) _ rfl h
  intro c _ f f' hf hstep
  unfold followCandidate at hstep
  split at hstep
  · obtain ⟨out, hout, hstep⟩ := Option.bind_eq_some_iff.mp hstep
    obtain rfl := Option.some.inj hstep
    exact (call _ _ _ hout).trans hf
  · obtain rfl := Option.some.inj hstep
    exact hf

/-- A run puts the cycle list back to the length it had when the call began. -/
theorem matchLoop_cycleDetector (fuel : Nat) : ∀ {top tracker ambiguousResults result s out},
    top ≤ s.cycleDetector.length →
    matchLoop g m fuel top tracker ambiguousResults result s = some out →
    out.2.cycleDetector = s.cycleDetector.take top := by
  induction fuel with
  | zero => exact fun _ h => nomatch h
  | succ fuel ih =>
    intro top tracker ambiguousResults result s out htop h
    rcases matchLoop_cases h with ⟨-, hout⟩ | ⟨-, -, detector, hdetector, hout⟩ |
      ⟨-, -, results, s', hfollow, hrest⟩
    · exact hout
    · rcases hdetector with rfl | rfl
      · exact hout
      · rw [hout, List.take_append_of_le_length htop]
    · have hs' : s'.cycleDetector = s.cycleDetector ++ [tracker] :=
        followCandidates_cycleDetector
          (fun c s out hout => (ih le_rfl hout).trans (List.take_length ..)) hfollow
      rcases hrest with ⟨-, hout⟩ | ⟨next, s'', -, hs'', hloop⟩
      · rw [hout, hs', List.take_append_of_le_length htop]
      · have htop'' : top ≤ s''.cycleDetector.length := by
          rw [hs'', hs', List.length_append]
          exact htop.trans (Nat.le_add_right ..)
        rw [ih htop'' hloop, hs'', hs', List.take_append_of_le_length htop]

theorem followCandidates_restores
    (h : followCandidates g m fuel refs found = some found') :
    found'.2.cycleDetector = found.2.cycleDetector :=
  followCandidates_cycleDetector
    (fun _ _ _ hout => (matchLoop_cycleDetector fuel le_rfl hout).trans (List.take_length ..)) h

theorem followCandidates_mono {j k : Nat}
    (call : ∀ c (s : MatchState) out, matchLoop g m j s.cycleDetector.length c [] .default s = some out →
      matchLoop g m k s.cycleDetector.length c [] .default s = some out)
    (h : followCandidates g m j refs found = some found') :
    followCandidates g m k refs found = some found' := by
  apply Loop.foldlM_mono refs _ h
  intro c _ f f' hstep
  unfold followCandidate at hstep ⊢
  split at hstep
  next himport =>
    obtain ⟨out, hout, hstep⟩ := Option.bind_eq_some_iff.mp hstep
    rw [if_pos himport]
    exact Option.bind_eq_some_iff.mpr ⟨out, call _ _ _ hout, hstep⟩
  next himport =>
    rw [if_neg himport]
    exact hstep

/-- A result does not depend on the fuel, once there is enough. -/
theorem matchLoop_succ (fuel : Nat) : ∀ {top tracker ambiguousResults result s out},
    matchLoop g m fuel top tracker ambiguousResults result s = some out →
    matchLoop g m (fuel + 1) top tracker ambiguousResults result s = some out := by
  induction fuel with
  | zero => exact fun h => nomatch h
  | succ fuel ih =>
    intro top tracker ambiguousResults result s out h
    by_cases hcut : tracker ∈ s.cycleDetector.drop top
    · rw [matchLoop_cut hcut] at h ⊢
      exact h
    by_cases hfound : (advanceImportTracker g m tracker).status = .found
    · obtain ⟨-, source, ref, -, hsource, href⟩ := namedImport?_of_found hfound
      rw [matchLoop_found hcut hfound hsource href] at h ⊢
      obtain ⟨found, hfollow, h⟩ := Option.bind_eq_some_iff.mp h
      apply Option.bind_eq_some_iff.mpr
      refine ⟨found, followCandidates_mono (fun _ _ _ => ih) hfollow, ?_⟩
      cases hnext : next? g m tracker with
      | none =>
        rw [hnext] at h
        exact h
      | some next =>
        rw [hnext] at h
        exact ih h
    · obtain ⟨result', s', -, hloop⟩ := matchLoop_stop ambiguousResults result hcut hfound
      rw [hloop] at h ⊢
      exact h

theorem matchLoop_le {j k : Nat} (h : j ≤ k) {top tracker ambiguousResults result s out}
    (hj : matchLoop g m j top tracker ambiguousResults result s = some out) :
    matchLoop g m k top tracker ambiguousResults result s = some out := by
  induction h with
  | refl => exact hj
  | step _ ih => exact matchLoop_succ _ ih

/-! ### What a run that returns has called -/

/-- A call at `tracker` returns with this fuel, from some state. -/
def CallReturns (g : Graph) (m : Meta) (fuel : Nat) (tracker : ImportTracker) : Prop :=
  ∃ s out, matchImportWithExport g m fuel tracker s = some out

theorem followCandidates_called
    (h : followCandidates g m fuel refs found = some found') :
    ∀ c ∈ refs, (g.namedImport? c.data).isSome → CallReturns g m fuel c.data := by
  induction refs generalizing found with
  | nil => exact fun c hc => absurd hc List.not_mem_nil
  | cons c refs ih =>
    unfold followCandidates at h
    rw [List.foldlM_cons] at h
    obtain ⟨mid, hstep, hrest⟩ := Option.bind_eq_some_iff.mp h
    refine List.forall_mem_cons.mpr ⟨fun himport => ?_, ih hrest⟩
    unfold followCandidate at hstep
    rw [if_pos himport] at hstep
    obtain ⟨out, hout, -⟩ := Option.bind_eq_some_iff.mp hstep
    exact ⟨found.2, out, hout⟩

theorem next?_of_not_found (h : (advanceImportTracker g m tracker).status ≠ .found) : next? g m tracker = none :=
  if_neg fun hboth => h hboth.1

theorem candidates_of_not_found (h : (advanceImportTracker g m tracker).status ≠ .found) : candidates g m tracker = [] :=
  if_neg h

theorem candidates_of_found (h : (advanceImportTracker g m tracker).status = .found) :
    candidates g m tracker = (advanceImportTracker g m tracker).importData.map ImportData.data :=
  if_pos h

/-- A set of imports that a call has dealt with: it goes on along the chain, up to the imports
that the cycle list already had, and the calls for its candidates have returned. -/
structure Visited (g : Graph) (m : Meta) (fuel : Nat) (before visited : Set ImportTracker) : Prop where
  closed : ∀ a ∈ visited, ∀ b, next? g m a = some b → b ∈ visited ∨ b ∈ before
  called : ∀ a ∈ visited, ∀ c ∈ candidates g m a, (g.namedImport? c).isSome →
    ∃ k < fuel, CallReturns g m k c

theorem matchLoop_visited (fuel : Nat) : ∀ {top tracker ambiguousResults result s out},
    top ≤ s.cycleDetector.length →
    matchLoop g m fuel top tracker ambiguousResults result s = some out →
    ∃ visited, (tracker ∈ visited ∨ tracker ∈ s.cycleDetector.drop top) ∧
      Visited g m fuel {a | a ∈ s.cycleDetector.drop top} visited := by
  induction fuel with
  | zero => exact fun _ h => nomatch h
  | succ fuel ih =>
    intro top tracker ambiguousResults result s out htop h
    rcases matchLoop_cases h with ⟨hcut, -⟩ | ⟨-, hfound, -⟩ | ⟨-, hfound, results, s', hfollow, hrest⟩
    · refine ⟨∅, .inr hcut, ?_, ?_⟩
      · exact fun a ha => absurd ha (Set.notMem_empty a)
      · exact fun a ha => absurd ha (Set.notMem_empty a)
    · refine ⟨{tracker}, .inl rfl, ?_, ?_⟩
      · rintro _ rfl b hb
        rw [next?_of_not_found hfound] at hb
        cases hb
      · rintro _ rfl c hc
        rw [candidates_of_not_found hfound] at hc
        exact absurd hc List.not_mem_nil
    · have hcalled : ∀ c ∈ candidates g m tracker, (g.namedImport? c).isSome →
          ∃ k < fuel + 1, CallReturns g m k c := by
        intro c hc himport
        rw [candidates_of_found hfound] at hc
        obtain ⟨data, hdata, rfl⟩ := List.mem_map.mp hc
        exact ⟨fuel, Nat.lt_succ_self fuel, followCandidates_called hfollow data hdata himport⟩
      rcases hrest with ⟨hnext, -⟩ | ⟨next, s'', hnext, hs'', hloop⟩
      · refine ⟨{tracker}, .inl rfl, ?_, ?_⟩
        · rintro _ rfl b hb
          rw [hnext] at hb
          cases hb
        · rintro _ rfl
          exact hcalled
      · -- The rest of the chain, which stops where it meets `tracker` again.
        have hlist : s''.cycleDetector = s.cycleDetector ++ [tracker] :=
          hs''.trans (followCandidates_restores hfollow)
        have htop'' : top ≤ s''.cycleDetector.length := by
          rw [hlist, List.length_append]
          exact htop.trans (Nat.le_add_right ..)
        obtain ⟨visited, hreached, hvisited⟩ := ih htop'' hloop
        rw [hlist, List.drop_append_of_le_length htop] at hreached hvisited
        have hbefore : ∀ b, b ∈ visited ∨ b ∈ s.cycleDetector.drop top ++ [tracker] →
            b ∈ insert tracker visited ∨ b ∈ s.cycleDetector.drop top := by
          intro b hb
          simp only [List.mem_append, List.mem_singleton] at hb
          rcases hb with hb | hb | rfl
          · exact .inl (.inr hb)
          · exact .inr hb
          · exact .inl (.inl rfl)
        refine ⟨insert tracker visited, .inl (.inl rfl), ?_, ?_⟩
        · rintro a (rfl | ha) b hb
          · obtain rfl : next = b := Option.some.inj (hnext.symm.trans hb)
            exact hbefore next hreached
          · exact hbefore b (hvisited.closed a ha b hb)
        · rintro a (rfl | ha) c hc himport
          · exact hcalled c hc himport
          · obtain ⟨k, hk, hreturns⟩ := hvisited.called a ha c hc himport
            exact ⟨k, hk.trans (Nat.lt_succ_self fuel), hreturns⟩

/-- A call that returns has made, with less fuel, the call for every candidate on its chain. -/
theorem CallReturns.spawns {start c : ImportTracker} (h : CallReturns g m fuel start)
    (hc : Spawns g m start c) : ∃ k < fuel, CallReturns g m k c := by
  obtain ⟨s, out, hout⟩ := h
  obtain ⟨tracker, hchain, hmem, himport⟩ := hc
  obtain ⟨visited, hstart, hvisited⟩ := matchLoop_visited fuel le_rfl hout
  rw [List.drop_length] at hstart hvisited
  have hon : ∀ a, OnChain g m start a → a ∈ visited := by
    intro a ha
    induction ha with
    | refl => exact hstart.resolve_right List.not_mem_nil
    | tail _ hnext ih => exact (hvisited.closed _ ih _ hnext).resolve_right List.not_mem_nil
  exact hvisited.called tracker (hon tracker hchain) c hmem himport

/-! ### Enough fuel -/

/-- Everything that one step may lead to. -/
def trackers (m : Meta) : List ImportTracker :=
  m.flatMap fun row =>
    (row.resolvedExportStar :: row.resolvedExports.entries.map Prod.snd).flatMap fun entry =>
      entry.data :: entry.potentiallyAmbiguousExportStarRefs.map ImportData.data

theorem mem_trackers {row : FileMeta} {entry : ExportData} (hrow : row ∈ m)
    (hentry : entry ∈ row.resolvedExportStar :: row.resolvedExports.entries.map Prod.snd) :
    entry.data ∈ trackers m ∧
      ∀ d ∈ entry.potentiallyAmbiguousExportStarRefs, d.data ∈ trackers m := by
  have hmem : ∀ a ∈ entry.data :: entry.potentiallyAmbiguousExportStarRefs.map ImportData.data,
      a ∈ trackers m := fun a ha =>
    List.mem_flatMap.mpr ⟨row, hrow, List.mem_flatMap.mpr ⟨entry, hentry, ha⟩⟩
  exact ⟨hmem _ List.mem_cons_self,
    fun d hd => hmem _ (List.mem_cons_of_mem _ (List.mem_map_of_mem hd))⟩

theorem matchingExport?_trackers {other : SourceIndex} {namedImport : NamedImport} {matching : ExportData}
    (h : matchingExport? m other namedImport = some matching) :
    matching.data ∈ trackers m ∧
      ∀ d ∈ matching.potentiallyAmbiguousExportStarRefs, d.data ∈ trackers m := by
  unfold matchingExport? Meta.row at h
  rw [List.getD_eq_getElem?_getD] at h
  cases hrow : m[other]? with
  | none =>
    rw [hrow] at h
    simp [FileMeta.empty, ExportData.default, ImportTracker.default, ArrayMap.get?, ArrayMap.empty] at h
  | some row =>
    rw [hrow] at h
    dsimp only [Option.getD_some] at h
    apply mem_trackers (List.mem_of_getElem? hrow)
    split at h
    · obtain rfl := Option.some.inj h
      exact List.mem_cons_self
    · apply List.mem_cons_of_mem
      exact List.mem_map_of_mem ((ArrayMap.get?_eq_some _).mp h)

theorem advanceImportTracker_trackers (h : (advanceImportTracker g m tracker).status = .found) :
    (advanceImportTracker g m tracker).value ∈ trackers m ∧
      ∀ d ∈ (advanceImportTracker g m tracker).importData, d.data ∈ trackers m := by
  obtain ⟨namedImport, other, matching, -, hmatching, heq⟩ := advanceImportTracker_found h
  rw [heq]
  exact matchingExport?_trackers hmatching

theorem next?_trackers {a b : ImportTracker} (h : next? g m a = some b) : b ∈ trackers m := by
  unfold next? at h
  dsimp only at h
  split at h
  next hfound =>
    obtain rfl := Option.some.inj h
    exact (advanceImportTracker_trackers hfound.1).1
  · cases h

theorem Spawns.trackers {a c : ImportTracker} (h : Spawns g m a c) : c ∈ trackers m := by
  obtain ⟨tracker, -, hmem, -⟩ := h
  unfold candidates at hmem
  dsimp only at hmem
  split at hmem
  next hfound =>
    obtain ⟨data, hdata, rfl⟩ := List.mem_map.mp hmem
    exact (advanceImportTracker_trackers hfound).2 data hdata
  · exact absurd hmem List.not_mem_nil

theorem OnChain.trackers {start a : ImportTracker} (h : OnChain g m start a) :
    a ∈ start :: trackers m := by
  induction h with
  | refl => exact List.mem_cons_self
  | tail _ hnext _ => exact List.mem_cons_of_mem _ (next?_trackers hnext)

/-- Calls that return for every candidate make their caller get past them. -/
theorem followCandidates_returns (results : List MatchImport) (s : MatchState)
    (hcall : ∀ d ∈ refs, (g.namedImport? d.data).isSome →
      ∀ s, ∃ k out, matchImportWithExport g m k d.data s = some out) :
    ∃ k results' s', followCandidates g m k refs (results, s) = some (results', s') := by
  obtain ⟨k, ⟨results', s'⟩, h, -⟩ := Loop.foldlM_enough
    (f := fun k => followCandidate g fun candidate s =>
      matchLoop g m k s.cycleDetector.length candidate [] .default s) refs
    (fun j k hjk d _ found found' h => by
      unfold followCandidate at h ⊢
      split at h
      next himport =>
        obtain ⟨out, hout, h⟩ := Option.bind_eq_some_iff.mp h
        rw [if_pos himport]
        exact Option.bind_eq_some_iff.mpr ⟨out, matchLoop_le hjk hout, h⟩
      next himport =>
        rw [if_neg himport]
        exact h)
    (fun _ => True)
    (fun d hd found _ => by
      by_cases himport : (g.namedImport? d.data).isSome
      · obtain ⟨k, out, hout⟩ := hcall d hd himport found.2
        refine ⟨k, (found.1 ++ [out.1], out.2), ?_, trivial⟩
        rw [followCandidate, if_pos himport]
        exact Option.bind_eq_some_iff.mpr ⟨out, hout, rfl⟩
      · refine ⟨0, (found.1 ++ [.normal d.data], found.2), ?_, trivial⟩
        rw [followCandidate, if_neg himport])
    (s := (results, s)) trivial
  exact ⟨k, results', s', h⟩

theorem matchLoop_returns
    (hcall : ∀ c, Spawns g m start c → ∀ s, ∃ k out, matchImportWithExport g m k c s = some out) (n : Nat) :
    ∀ {top tracker ambiguousResults result s}, top ≤ s.cycleDetector.length → OnChain g m start tracker →
      Marking.remaining (start :: trackers m).toFinset {a | a ∈ s.cycleDetector.drop top} < n →
      ∃ k out, matchLoop g m k top tracker ambiguousResults result s = some out := by
  induction n with
  | zero => exact fun _ _ h => absurd h (Nat.not_lt_zero _)
  | succ n ih =>
    intro top tracker ambiguousResults result s htop hchain hleft
    by_cases hcut : tracker ∈ s.cycleDetector.drop top
    · exact ⟨1, _, matchLoop_cut hcut⟩
    by_cases hfound : (advanceImportTracker g m tracker).status = .found
    · obtain ⟨-, source, ref, -, hsource, href⟩ := namedImport?_of_found hfound
      have hcandidates : ∀ d ∈ (advanceImportTracker g m tracker).importData,
          (g.namedImport? d.data).isSome →
          ∀ s, ∃ k out, matchImportWithExport g m k d.data s = some out := by
        intro d hd himport
        apply hcall
        refine ⟨tracker, hchain, ?_, himport⟩
        rw [candidates_of_found hfound]
        exact List.mem_map_of_mem hd
      obtain ⟨j, results, s', hfollow⟩ := followCandidates_returns ambiguousResults
        {s with cycleDetector := s.cycleDetector ++ [tracker]} hcandidates
      cases hnext : next? g m tracker with
      | none =>
        refine ⟨j + 1, finishMatch top results (.normal (advanceImportTracker g m tracker).value)
          (s'.dependOn g source ref), ?_⟩
        rw [matchLoop_found hcut hfound hsource href, hfollow, hnext]
        rfl
      | some next =>
        have hlist : s'.cycleDetector = s.cycleDetector ++ [tracker] := followCandidates_restores hfollow
        have hset : ({a | a ∈ (s'.dependOn g source ref).cycleDetector.drop top} : Set ImportTracker) =
            insert tracker {a | a ∈ s.cycleDetector.drop top} := by
          show {a | a ∈ s'.cycleDetector.drop top} = _
          rw [hlist, List.drop_append_of_le_length htop]
          ext a
          simp [or_comm]
        have htop' : top ≤ (s'.dependOn g source ref).cycleDetector.length := by
          show top ≤ s'.cycleDetector.length
          rw [hlist, List.length_append]
          exact htop.trans (Nat.le_add_right ..)
        have hfresh : tracker ∉ ({a | a ∈ s.cycleDetector.drop top} : Set ImportTracker) := hcut
        have hless := Marking.remaining_insert (start :: trackers m).toFinset (List.mem_toFinset.mpr hchain.trackers) hfresh
        rw [← hset] at hless
        obtain ⟨k, out, hloop⟩ := ih htop'
          (hchain.tail hnext) (by omega)
        refine ⟨max j k + 1, out, ?_⟩
        rw [matchLoop_found hcut hfound hsource href, followCandidates_mono
          (fun _ _ _ h => matchLoop_le (le_max_left j k) h) hfollow, hnext]
        exact matchLoop_le (le_max_right j k) hloop
    · obtain ⟨result', s', -, hloop⟩ := matchLoop_stop ambiguousResults result hcut hfound
      exact ⟨1, _, hloop 0⟩

/-- A call whose candidates never lead back to themselves returns. -/
theorem matchImportWithExport_returns (h : Nesting.NeverReenters (Spawns g m) start) (s : MatchState) :
    ∃ fuel out, matchImportWithExport g m fuel start s = some out := by
  have hacc : Acc (fun b c => Spawns g m c b) start :=
    h.acc (trackers m).finite_toSet fun _ _ hc => hc.trackers
  induction hacc generalizing s with
  | intro start _ ih =>
    exact matchLoop_returns (fun c hc s => ih c hc (h.call hc) s) _ le_rfl .refl (Nat.lt_succ_self _)

end

/-! ### A candidate that is a re-export of the file being resolved -/

namespace Reexport

/-- `export * from 'a'; export * from 'b'` -/
def index : File :=
  {File.empty with importRecords := [⟨some 1, false⟩, ⟨some 2, false⟩], exportStarImportRecords := [0, 1]}

/-- `export const x = 1` -/
def a : File := {File.empty with namedExports := ArrayMap.empty.put [120] ⟨⟨1, 0⟩, 13⟩}

/-- `export {x} from 'index'` -/
def b : File :=
  { File.empty with
    namedImports := ArrayMap.empty.put ⟨2, 0⟩ ⟨some ⟨8, [120]⟩, 8, some ⟨2, 1⟩, 0, false, true⟩
    namedExports := ArrayMap.empty.put [120] ⟨⟨2, 0⟩, 8⟩
    importRecords := [⟨some 0, false⟩] }

def graph : Graph := ⟨[index, a, b], .esm, false⟩

/-- What the export stars of the three files leave. -/
def columns : Meta := (resolveAllExportStars graph 4 [0, 1, 2] graph.load).getD []

def reexport : ImportTracker := ⟨some 2, 8, some ⟨2, 0⟩⟩

theorem spawns_reexport (loc : Int) : Spawns graph columns ⟨some 2, loc, some ⟨2, 0⟩⟩ reexport :=
  ⟨_, .refl, by
    show reexport ∈ candidates graph columns ⟨some 2, loc, some ⟨2, 0⟩⟩
    have : candidates graph columns ⟨some 2, loc, some ⟨2, 0⟩⟩ = [reexport] := rfl
    rw [this]
    exact List.mem_singleton_self _, rfl⟩

end Reexport

/-- Following an import comes to an end exactly when no candidate that it leads to leads back
to itself; following export stars always does. -/
theorem importBinding_terminates (g : Graph) :
    (∀ reachable columns, ∃ fuel m, resolveAllExportStars g fuel reachable columns = some m) ∧
    ∀ m tracker s, (∃ fuel out, matchImportWithExport g m fuel tracker s = some out) ↔
      Nesting.NeverReenters (Spawns g m) tracker := by
  refine ⟨fun reachable columns => ⟨_, resolveAllExportStars_returns g reachable columns⟩, ?_⟩
  intro m tracker s
  constructor
  · rintro ⟨fuel, out, hout⟩
    exact Nesting.neverReenters_of_returns (R := CallReturns g m)
      (fun _ _ _ h hc => h.spawns hc) ⟨s, out, hout⟩
  · exact fun h => matchImportWithExport_returns h s

/-- A file that passes on `x` from two files, one of which takes it from there: the call for
that candidate calls itself forever, and nothing is wrong with `x`. -/
theorem importBinding_reexport_never_ends :
    resolveAllExportStars Reexport.graph 4 [0, 1, 2] Reexport.graph.load = some Reexport.columns ∧
    (Reexport.graph.namedImport? ⟨some 2, -1, some ⟨2, 0⟩⟩).isSome ∧
    ∀ fuel s, matchImportWithExport Reexport.graph Reexport.columns fuel ⟨some 2, -1, some ⟨2, 0⟩⟩ s = none := by
  refine ⟨rfl, rfl, fun fuel s => ?_⟩
  apply Option.eq_none_iff_forall_ne_some.mpr
  intro out hout
  have hnever := Nesting.neverReenters_of_returns (R := CallReturns Reexport.graph Reexport.columns)
    (fun _ _ _ h hc => h.spawns hc) ⟨s, out, hout⟩
  exact hnever _ (.single (Reexport.spawns_reexport (-1))) (.single (Reexport.spawns_reexport 8))

end Funbun.Bundler.ImportBinding
