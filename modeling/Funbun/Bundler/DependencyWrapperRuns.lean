import Funbun.Bundler.DependencyWrapperProofs

/-! What the two steps leave: wrappers all the way down, and dynamic exports wherever `export *` leads to some. -/
namespace Funbun.Bundler.DependencyWrapper
open Library Marking Fuel Search
open ImportBinding (ExportsKind)

namespace Graph
variable (g : Graph)

/-! ### Looking behind `export *` -/

/-- The modules that a module names in `export *`. -/
def stars (i : Nat) : Set Nat := {j | ∃ id ∈ (g.file i).exportStarRecords, g.starSource i id = some j}

/-- Some `export *` of the module leads out of the bundle and counts as dynamic. -/
def External (i : Nat) : Prop :=
  ∃ id ∈ (g.file i).exportStarRecords, g.starSource i id = none ∧ g.dynamicExternal i = true

def StarReach : Nat → Nat → Prop := Relation.ReflTransGen fun i j => j ∈ g.stars i

/-- The exports of the module are not known. -/
def Unknown (ms : Modules) (i : Nat) : Prop :=
  ((ms i).exportsKind = .cjs ∨ (ms i).exportsKind = .esmWithDynamicFallback) ∨ g.External i

/-- A search leaves modules as they were, or lets them fall back where they lead to unknown exports. -/
def Raised (source : Nat) (ms ms' : Modules) : Prop :=
  ∀ i, ms' i = ms i ∨ (ms i).exportsKind ≠ .cjs ∧ ms' i = (ms i).setDynamicFallback ∧ g.StarReach source i ∧
    ∃ t, g.StarReach i t ∧ g.Unknown ms t

/-- What a search owes that found nothing. -/
def Looks (targets : Set Nat) (s s' : Search) : Prop :=
  s'.modules = s.modules ∧ Missed g.stars (g.Unknown s.modules) targets {i | i ∈ s.exportStarMap} {i | i ∈ s'.exportStarMap}

/-- What a search owes that found something. -/
def Finds (source : Nat) (ms ms' : Modules) : Prop :=
  (∃ t, g.StarReach source t ∧ g.Unknown ms t) ∧ g.Raised source ms ms'

theorem sequential_looks : Sequential g.Looks where
  nothing _ := ⟨rfl, .nothing _⟩
  append h h' := ⟨h'.1.trans h.1, h.2.append (h.1 ▸ h'.2)⟩

variable {g}

theorem Raised.refl (source : Nat) (ms : Modules) : g.Raised source ms ms := fun _ => .inl rfl

variable {i : Nat} {reachable : List Nat}

theorem file_of_le (h : g.files.length ≤ i) : g.file i = .empty := by
  unfold file
  rw [List.getD_eq_getElem?_getD, List.getElem?_eq_none h]
  rfl

theorem setDynamicFallback_idem (m : Module) : m.setDynamicFallback.setDynamicFallback = m.setDynamicFallback := rfl

/-- What the loop over `export *` keeps: the modules, and the mark of the module that is looked behind. -/
def Loops (g : Graph) (ms : Modules) (source n : Nat) (s : Search) : Prop :=
  s.modules = ms ∧ source ∈ s.exportStarMap ∧
    remaining (Finset.range g.files.length) {i | i ∈ s.exportStarMap} < n

theorem lookBehindStar_spec {visit : Nat → Nat → Search → Option (Bool × Search)} {n source id : Nat} {ms : Modules}
    (hid : id ∈ (g.file source).exportStarRecords)
    (hvisit : ∀ other s, remaining (Finset.range g.files.length) {i | i ∈ s.exportStarMap} < n →
      ∃ b s', Settles (fun fuel => visit fuel other s) (b, s') ∧ (b = true → g.Finds other s.modules s'.modules) ∧
        (b = false → g.Looks {other} s s')) (s : Search) (hs : g.Loops ms source n s) :
    ∃ b s', Settles (fun fuel => g.lookBehindStar (visit fuel) source id s) (b, s') ∧
      (b = true → g.Finds source s.modules s'.modules) ∧
      (b = false → g.Looks {j | g.starSource source id = some j} s s' ∧ g.Loops ms source n s' ∧
        ¬(g.starSource source id = none ∧ g.dynamicExternal source = true)) := by
  obtain ⟨hmodules, hmem, hn⟩ := hs
  unfold lookBehindStar
  cases hsource : g.starSource source id with
  | none =>
    refine ⟨g.dynamicExternal source, s, .of_forall fun fuel => rfl, fun hb => ?_, fun hb =>
      ⟨?_, ⟨hmodules, hmem, hn⟩, fun hexternal => Bool.false_ne_true (hb.symm.trans hexternal.2)⟩⟩
    · exact ⟨⟨source, .refl, .inr ⟨id, hid, hsource, hb⟩⟩, .refl source s.modules⟩
    · have hempty : {j | (none : Option Nat) = some j} = (∅ : Set Nat) := by
        ext j
        simp
      rw [hempty]
      exact g.sequential_looks.nothing s
  | some other =>
    have htargets : {j | some other = some j} = ({other} : Set Nat) := by
      ext j
      simp [eq_comm]
    rw [htargets]
    dsimp only
    by_cases hself : other = source
    · subst hself
      simp only [if_pos]
      exact ⟨false, s, .of_forall fun fuel => rfl, (by simp), fun _ =>
        ⟨⟨rfl, .already hmem⟩, ⟨hmodules, hmem, hn⟩, fun hexternal => nomatch hexternal.1⟩⟩
    · simp only [if_neg hself]
      obtain ⟨b, s', hsettles, hfound, hmissed⟩ := hvisit other s hn
      have hstar : other ∈ g.stars source := ⟨id, hid, hsource⟩
      refine ⟨b, s', hsettles, fun hb => ?_, fun hb => ?_⟩
      · obtain ⟨⟨t, hreach, hunknown⟩, hraised⟩ := hfound hb
        refine ⟨⟨t, .head hstar hreach, hunknown⟩, fun i => ?_⟩
        rcases hraised i with heq | ⟨hkind, heq, hi, ht⟩
        · exact .inl heq
        · exact .inr ⟨hkind, heq, .head hstar hi, ht⟩
      · have hlooks := hmissed hb
        refine ⟨hlooks, ⟨hlooks.1.trans hmodules, hlooks.2.marked.kept hmem, ?_⟩, fun hexternal => nomatch hexternal.1⟩
        exact Nat.lt_of_le_of_lt (remaining_mono _ hlooks.2.marked.kept) hn

/-- A search ends. It finds nothing unless there is something. -/
theorem hasDynamicExports_spec (n : Nat) (source : Nat) (s : Search)
    (hn : remaining (Finset.range g.files.length) {i | i ∈ s.exportStarMap} < n) :
    ∃ b s', Settles (fun fuel => g.hasDynamicExportsDueToExportStar fuel source s) (b, s') ∧
      (b = true → g.Finds source s.modules s'.modules ∧
        ((s'.modules source).exportsKind = .cjs ∨ (s'.modules source).exportsKind = .esmWithDynamicFallback)) ∧
      (b = false → g.Looks {source} s s') := by
  induction n generalizing source s with
  | zero => exact absurd hn (Nat.not_lt_zero _)
  | succ n ih =>
    by_cases hkind : (s.modules source).exportsKind = .cjs ∨ (s.modules source).exportsKind = .esmWithDynamicFallback
    · refine ⟨true, s, .of_succ (.of_forall fun fuel => if_pos hkind), fun _ => ?_, by simp⟩
      exact ⟨⟨⟨source, .refl, .inl hkind⟩, .refl source s.modules⟩, hkind⟩
    by_cases hvisited : source ∈ s.exportStarMap
    · refine ⟨false, s, .of_succ (.of_forall fun fuel => ?_), (by simp), fun _ => ⟨rfl, .already hvisited⟩⟩
      exact (if_neg hkind).trans (if_pos hvisited)
    generalize hmarked : ({s with exportStarMap := insert source s.exportStarMap} : Search) = marked
    have hmodules : marked.modules = s.modules := by rw [← hmarked]
    have hmap : {i | i ∈ marked.exportStarMap} = insert source {i | i ∈ s.exportStarMap} := by
      rw [← hmarked]
      ext i
      exact Finset.mem_insert
    have hloop : ∃ b s', Settles (fun fuel => untilFound
        (g.lookBehindStar (g.hasDynamicExportsDueToExportStar fuel) source) (g.file source).exportStarRecords marked) (b, s') ∧
        (b = true → g.Finds source s.modules s'.modules) ∧
        (b = false → g.Looks (g.stars source) marked s' ∧ ¬g.External source) := by
      by_cases hrange : source < g.files.length
      · have hless : remaining (Finset.range g.files.length) {i | i ∈ marked.exportStarMap} < n := by
          rw [hmap]
          exact Nat.lt_of_lt_of_le (remaining_insert _ (Finset.mem_range.mpr hrange) hvisited) (Nat.le_of_lt_succ hn)
        have hI : g.Loops s.modules source n marked := by
          refine ⟨hmodules, ?_, hless⟩
          rw [← hmarked]
          exact Finset.mem_insert_self _ _
        obtain ⟨b, s', hsettles, hfound, hmissed⟩ := settles_untilFound g.sequential_looks
          (fun id => {j | g.starSource source id = some j}) (g.Loops s.modules source n)
          (fun _ s₁ s₂ => g.Finds source s₁.modules s₂.modules)
          (fun id => ¬(g.starSource source id = none ∧ g.dynamicExternal source = true)) (g.file source).exportStarRecords
          (fun id hid s₁ hs₁ => lookBehindStar_spec hid (fun other s₂ hs₂ => by
            obtain ⟨b, s', hsettles, hfound, hmissed⟩ := ih other s₂ hs₂
            exact ⟨b, s', hsettles, fun hb => (hfound hb).1, hmissed⟩) s₁ hs₁) marked hI
        refine ⟨b, s', hsettles, fun hb => ?_, fun hb => ?_⟩
        · obtain ⟨id, hid, t, mid, hlooks, hfinds⟩ := hfound hb
          rwa [hlooks.1, hmodules] at hfinds
        · obtain ⟨hall, hclean⟩ := hmissed hb
          have htargets : (⋃ id ∈ (g.file source).exportStarRecords, {j | g.starSource source id = some j}) =
              g.stars source := by
            ext j
            simp [stars]
          rw [htargets] at hall
          exact ⟨hall, fun ⟨id, hid, hexternal⟩ => hclean id hid hexternal⟩
      · have hempty : (g.file source).exportStarRecords = [] := by
          rw [file_of_le (Nat.le_of_not_lt hrange)]
          rfl
        have hnone : g.stars source = ∅ := by
          ext j
          simp [stars, hempty]
        rw [hempty, hnone]
        exact ⟨false, marked, .of_forall fun fuel => rfl, (by simp), fun _ =>
          ⟨g.sequential_looks.nothing marked, fun ⟨id, hid, _⟩ => nomatch hempty ▸ hid⟩⟩
    obtain ⟨b, s', hsettles, hfound, hmissed⟩ := hloop
    have hcall : ∀ fuel, g.hasDynamicExportsDueToExportStar (fuel + 1) source s =
        (untilFound (g.lookBehindStar (g.hasDynamicExportsDueToExportStar fuel) source) (g.file source).exportStarRecords
          marked).map fun r =>
            if r.1 then
              (true, {r.2 with modules := Function.update r.2.modules source (r.2.modules source).setDynamicFallback})
            else (false, r.2) := by
      intro fuel
      rw [hasDynamicExportsDueToExportStar, if_neg hkind, if_neg hvisited, hmarked]
    have hmapped := hsettles.map fun r =>
      if r.1 then
        (true, ({r.2 with modules := Function.update r.2.modules source (r.2.modules source).setDynamicFallback} : Search))
      else (false, r.2)
    simp only [← hcall] at hmapped
    cases b with
    | true =>
      obtain ⟨hreach, hraised⟩ := hfound rfl
      refine ⟨true, _, hmapped.of_succ, fun _ => ⟨⟨hreach, fun i => ?_⟩, ?_⟩, by simp⟩
      · by_cases hi : i = source
        · subst hi
          refine .inr ⟨fun hcjs => hkind (.inl hcjs), ?_, .refl, hreach⟩
          show Function.update s'.modules i (s'.modules i).setDynamicFallback i = _
          rw [Function.update_self]
          rcases hraised i with heq | ⟨-, heq, -, -⟩
          · rw [heq]
          · rw [heq, setDynamicFallback_idem]
        · dsimp only
          rw [Function.update_of_ne hi]
          exact hraised i
      · dsimp only
        rw [Function.update_self]
        exact .inr rfl
    | false =>
      obtain ⟨⟨hsame, hlooked⟩, hexternal⟩ := hmissed rfl
      refine ⟨false, s', hmapped.of_succ, (by simp), fun _ => ⟨hsame.trans hmodules, ?_⟩⟩
      rw [hmap, hmodules] at hlooked
      refine .explore hvisited ?_ hlooked
      rintro (hunknown | hexternal')
      · exact hkind hunknown
      · exact hexternal hexternal'

/-! ### Wrapping -/

/-- The modules but for the runtime that a module imports. -/
def imports (g : Graph) (i : Nat) : Set Nat := {j | j ≠ runtime ∧ ∃ record ∈ g.importRecords i, record.sourceIndex = some j}

/-- The modules whose imports are wrapped. -/
def wrapMarks (ms : Modules) : Set Nat := {i | (ms i).flags.didWrapDependencies = true}

/-- The wrapper of a module that is to have one. -/
def wrapKind (m : Module) : CrossChunk.WrapKind :=
  if m.flags.wrap = .none then if m.exportsKind = .cjs then .cjs else .esm else m.flags.wrap

def wrapped (m : Module) : Module := {m with flags := ⟨true, wrapKind m⟩}

/-- What wrapping owes. -/
def Wraps (g : Graph) (targets : Set Nat) (ms ms' : Modules) : Prop :=
  Marked g.imports targets (wrapMarks ms) (wrapMarks ms') ∧
    ∀ i, ms' i = ms i ∨ i ∉ wrapMarks ms ∧ ms' i = wrapped (ms i)

theorem sequential_wraps (g : Graph) : Sequential g.Wraps where
  nothing _ := ⟨.nothing _, fun _ => .inl rfl⟩
  append := by
    rintro targets targets' ms mid ms' ⟨hmarked, hmid⟩ ⟨hmarked', hms'⟩
    refine ⟨hmarked.append hmarked', fun i => ?_⟩
    rcases hmid i with heq | ⟨hi, heq⟩
    · rcases hms' i with heq' | ⟨hi', heq'⟩
      · exact .inl (heq'.trans heq)
      · exact .inr ⟨fun hmem => hi' (hmarked.kept hmem), heq ▸ heq'⟩
    · rcases hms' i with heq' | ⟨hi', -⟩
      · exact .inr ⟨hi, heq'.trans heq⟩
      · refine absurd ?_ hi'
        show (mid i).flags.didWrapDependencies = true
        rw [heq]
        rfl

/-- A loop over the records of a module owes what its calls owe. -/
theorem settles_imports {σ : Type} {owes : Set Nat → σ → σ → Prop} (h : Sequential owes) (I : σ → Prop)
    (goal : Nat → Set Nat) {visit : Nat → σ → Nat → Option σ} (turn : Nat → σ → ImportRecord → Option σ)
    (hturn : ∀ fuel s record, turn fuel s record =
      match record.sourceIndex with
      | none => some s
      | some other => visit fuel s other) (records : List ImportRecord)
    (hvisit : ∀ record ∈ records, ∀ other, record.sourceIndex = some other → ∀ s, I s →
      ∃ s', Settles (fun fuel => visit fuel s other) s' ∧ owes (goal other) s s' ∧ I s') (s : σ) (hs : I s) :
    ∃ s', Settles (fun fuel => records.foldlM (turn fuel) s) s' ∧
      owes {j | ∃ record ∈ records, ∃ other, record.sourceIndex = some other ∧ j ∈ goal other} s s' ∧ I s' := by
  obtain ⟨s', hsettles, howes, hs', -⟩ := settles_foldlM h
    (fun record => {j | ∃ other, record.sourceIndex = some other ∧ j ∈ goal other}) I (fun _ _ => True)
    (fun _ _ _ _ _ _ => trivial) records (f := turn) (fun record hrecord s hs => by
      simp only [hturn]
      cases hsource : record.sourceIndex with
      | none =>
        refine ⟨s, .of_forall fun fuel => rfl, ?_, hs, trivial⟩
        have hempty : {j | ∃ other, (none : Option Nat) = some other ∧ j ∈ goal other} = ∅ := by
          ext j
          simp
        rw [hempty]
        exact h.nothing s
      | some other =>
        obtain ⟨s', hsettles, howes, hs'⟩ := hvisit record hrecord other hsource s hs
        refine ⟨s', hsettles, ?_, hs', trivial⟩
        have hgoal : {j | ∃ other', some other = some other' ∧ j ∈ goal other'} = goal other := by
          ext j
          simp
        rwa [hgoal]) s hs
  refine ⟨s', hsettles, ?_, hs'⟩
  have hgoals : (⋃ record ∈ records, {j | ∃ other, record.sourceIndex = some other ∧ j ∈ goal other}) =
      {j | ∃ record ∈ records, ∃ other, record.sourceIndex = some other ∧ j ∈ goal other} := by
    ext j
    simp
  rwa [hgoals] at howes

/-- Wrapping ends, and wraps what is behind its target. -/
theorem wrap_spec (n : Nat) (source : Nat) (ms : Modules)
    (hn : remaining (Finset.range g.files.length) (wrapMarks ms) < n) :
    ∃ ms', Settles (fun fuel => g.wrap fuel ms source) ms' ∧ g.Wraps {i | i = source ∧ i ≠ runtime} ms ms' := by
  induction n generalizing source ms with
  | zero => exact absurd hn (Nat.not_lt_zero _)
  | succ n ih =>
    by_cases hdid : (ms source).flags.didWrapDependencies = true
    · refine ⟨ms, .of_succ (.of_forall fun fuel => if_pos hdid), .covered ?_, fun _ => .inl rfl⟩
      rintro i ⟨rfl, -⟩
      exact hdid
    by_cases hruntime : source = runtime
    · refine ⟨ms, .of_succ (.of_forall fun fuel => (if_neg hdid).trans (if_pos hruntime)), .covered ?_, fun _ => .inl rfl⟩
      rintro i ⟨rfl, hne⟩
      exact absurd hruntime hne
    have htarget : {i | i = source ∧ i ≠ runtime} = {source} := by
      ext i
      simp only [Set.mem_ofPred_eq, Set.mem_singleton_iff]
      exact ⟨And.left, fun heq => ⟨heq, heq ▸ hruntime⟩⟩
    generalize hmarked : Function.update ms source (wrapped (ms source)) = marked
    have hmarks : wrapMarks marked = insert source (wrapMarks ms) := by
      rw [← hmarked]
      ext i
      by_cases hi : i = source
      · subst hi
        simp [wrapMarks, wrapped]
      · simp [wrapMarks, hi]
    have hcall : ∀ fuel, g.wrap (fuel + 1) ms source =
        (g.importRecords source).foldlM (visitImport (g.wrap fuel)) marked := by
      intro fuel
      rw [wrap, if_neg hdid, if_neg hruntime, ← hmarked]
      rfl
    have hloop : ∃ ms', Settles (fun fuel => (g.importRecords source).foldlM (visitImport (g.wrap fuel)) marked) ms' ∧
        g.Wraps (g.imports source) marked ms' := by
      by_cases hrange : source < g.files.length
      · have hless : remaining (Finset.range g.files.length) (wrapMarks marked) < n := by
          rw [hmarks]
          exact Nat.lt_of_lt_of_le (remaining_insert _ (Finset.mem_range.mpr hrange) hdid) (Nat.le_of_lt_succ hn)
        obtain ⟨ms', hsettles, howes, -⟩ := settles_imports (sequential_wraps g)
          (fun ms => remaining (Finset.range g.files.length) (wrapMarks ms) < n) (fun other => {i | i = other ∧ i ≠ runtime})
          (fun fuel => visitImport (g.wrap fuel)) (fun fuel ms record => rfl) (g.importRecords source) (fun record _ other _ ms hless => by
            obtain ⟨ms', hsettles, hwraps⟩ := ih other ms hless
            exact ⟨ms', hsettles, hwraps, Nat.lt_of_le_of_lt (remaining_mono _ hwraps.1.kept) hless⟩) marked hless
        have hgoals : {j | ∃ record ∈ g.importRecords source, ∃ other, record.sourceIndex = some other ∧
            j ∈ {i | i = other ∧ i ≠ runtime}} = g.imports source := by
          ext j
          constructor
          · rintro ⟨record, hrecord, other, hsource, rfl, hne⟩
            exact ⟨hne, record, hrecord, hsource⟩
          · rintro ⟨hne, record, hrecord, hsource⟩
            exact ⟨record, hrecord, j, hsource, rfl, hne⟩
        rw [hgoals] at howes
        exact ⟨ms', hsettles, howes⟩
      · have hempty : g.importRecords source = [] := by
          unfold importRecords
          rw [file_of_le (Nat.le_of_not_lt hrange)]
          rfl
        have hnone : g.imports source = ∅ := by
          ext j
          simp [imports, hempty]
        rw [hempty, hnone]
        exact ⟨marked, .of_forall fun fuel => rfl, (sequential_wraps g).nothing marked⟩
    obtain ⟨ms', hsettles, hwraps, hms'⟩ := hloop
    simp only [← hcall] at hsettles
    rw [hmarks] at hwraps
    rw [htarget]
    refine ⟨ms', hsettles.of_succ, .explore hdid hwraps, fun i => ?_⟩
    by_cases hi : i = source
    · subst hi
      have hown : marked i = wrapped (ms i) := by
        rw [← hmarked, Function.update_self]
      rcases hms' i with heq | ⟨hnot, -⟩
      · exact .inr ⟨hdid, heq.trans hown⟩
      · exact absurd (hmarks ▸ Set.mem_insert i _) hnot
    · have hother : marked i = ms i := by
        rw [← hmarked, Function.update_of_ne hi]
      rcases hms' i with heq | ⟨hnot, heq⟩
      · exact .inl (heq.trans hother)
      · exact .inr ⟨fun hmem => hnot (hmarks ▸ Set.mem_insert_of_mem source hmem), hother ▸ heq⟩

/-! ### Step 2 -/

/-- The exports of a module are known not to be known. -/
def Module.Dynamic (m : Module) : Prop := m.exportsKind = .cjs ∨ m.exportsKind = .esmWithDynamicFallback

/-- What a call of the second step owes for the modules it was to wrap. -/
def Steps (g : Graph) (targets : Set Nat) (ms ms' : Modules) : Prop :=
  Marked g.imports targets (wrapMarks ms) (wrapMarks ms') ∧ ∀ i, Module.Dynamic (ms i) → Module.Dynamic (ms' i)

theorem sequential_steps (g : Graph) : Sequential g.Steps where
  nothing _ := ⟨.nothing _, fun _ => id⟩
  append h h' := ⟨h.1.append h'.1, fun i hi => h'.2 i (h.2 i hi)⟩

/-- How the second step has changed a module that the first one left as `first i`. -/
structure Progress (g : Graph) (reachable : List Nat) (first ms : Modules) : Prop where
  kind : ∀ i, (ms i).exportsKind = (first i).exportsKind ∨ i ∈ reachable ∧ (first i).exportsKind ≠ .cjs ∧
    (ms i).exportsKind = .esmWithDynamicFallback ∧ ∃ t, g.StarReach i t ∧ g.Unknown first t
  flags : ∀ i, (ms i).flags = if (ms i).flags.didWrapDependencies then ⟨true, wrapKind (first i)⟩ else (first i).flags

namespace Progress
variable {reachable : List Nat} {first ms ms' : Modules}

theorem cjs_iff (h : g.Progress reachable first ms) (i : Nat) :
    (ms i).exportsKind = .cjs ↔ (first i).exportsKind = .cjs := by
  rcases h.kind i with heq | ⟨-, hne, heq, -⟩
  · rw [heq]
  · rw [heq]
    exact iff_of_false (fun hcjs => nomatch hcjs) hne

theorem flags_of_not_did (h : g.Progress reachable first ms) {i : Nat} (hi : i ∉ wrapMarks ms) :
    (ms i).flags = (first i).flags := by
  rw [h.flags i]
  exact if_neg hi

theorem unknown_mono (h : g.Progress reachable first ms) {t : Nat} (ht : g.Unknown first t) : g.Unknown ms t := by
  rcases ht with (hcjs | hfallback) | hexternal
  · exact .inl (.inl ((h.cjs_iff t).mpr hcjs))
  · rcases h.kind t with heq | ⟨-, -, heq, -⟩
    · exact .inl (.inr (heq.trans hfallback))
    · exact .inl (.inr heq)
  · exact .inr hexternal

theorem exists_unknown (h : g.Progress reachable first ms) {t : Nat} (ht : g.Unknown ms t) :
    ∃ t', g.StarReach t t' ∧ g.Unknown first t' := by
  rcases ht with hdynamic | hexternal
  · rcases h.kind t with heq | ⟨-, -, -, hreach⟩
    · exact ⟨t, .refl, .inl (heq ▸ hdynamic)⟩
    · exact hreach
  · exact ⟨t, .refl, .inr hexternal⟩

theorem wraps {targets : Set Nat} (h : g.Progress reachable first ms) (hwraps : g.Wraps targets ms ms') :
    g.Steps targets ms ms' ∧ g.Progress reachable first ms' := by
  have hkind : ∀ i, (ms' i).exportsKind = (ms i).exportsKind := fun i => by
    rcases hwraps.2 i with heq | ⟨-, heq⟩ <;> rw [heq]
    rfl
  refine ⟨⟨hwraps.1, fun i hi => ?_⟩, fun i => ?_, fun i => ?_⟩
  · unfold Module.Dynamic
    rwa [hkind]
  · rw [hkind]
    exact h.kind i
  · rcases hwraps.2 i with heq | ⟨hi, heq⟩
    · rw [heq]
      exact h.flags i
    · have hflags := h.flags_of_not_did hi
      have hcjs := h.cjs_iff i
      rw [heq]
      show (⟨true, wrapKind (ms i)⟩ : Flags) = ⟨true, wrapKind (first i)⟩
      unfold wrapKind
      rw [hflags]
      simp only [hcjs]

theorem raised (h : g.Progress reachable first ms) {id : Nat} (hid : ∀ i, g.StarReach id i → i ∈ reachable)
    (hraised : g.Raised id ms ms') : g.Steps ∅ ms ms' ∧ g.Progress reachable first ms' := by
  have hflags : ∀ i, (ms' i).flags = (ms i).flags := fun i => by
    rcases hraised i with heq | ⟨-, heq, -⟩ <;> rw [heq]
    rfl
  have hmarks : wrapMarks ms' = wrapMarks ms := by
    unfold wrapMarks
    simp only [hflags]
  refine ⟨⟨hmarks ▸ .nothing _, fun i hi => ?_⟩, fun i => ?_, fun i => ?_⟩
  · rcases hraised i with heq | ⟨-, heq, -⟩
    · rwa [heq]
    · rw [heq]
      exact .inr rfl
  · rcases hraised i with heq | ⟨hne, heq, hreach, t, ht, hunknown⟩
    · rw [heq]
      exact h.kind i
    · obtain ⟨t', ht', hunknown'⟩ := h.exists_unknown hunknown
      exact .inr ⟨hid i hreach, mt (h.cjs_iff i).mpr hne, heq ▸ rfl, t', ht.trans ht', hunknown'⟩
  · rw [hflags]
    exact h.flags i

end Progress

/-- What is known of a module after its turn. -/
def Settled (g : Graph) (first : Modules) (id : Nat) (ms : Modules) : Prop :=
  (∃ t, g.StarReach id t ∧ g.Unknown first t) → Module.Dynamic (ms id)

/-- The modules that the turn of a file is to wrap. -/
def turnTargets (g : Graph) (first : Modules) (id : Nat) : Set Nat :=
  {i | i ≠ runtime ∧ id < g.files.length ∧ (i = id ∧ (first id).flags.wrap ≠ .none ∨
    ∃ record ∈ g.importRecords id, record.sourceIndex = some i ∧ (first i).exportsKind = .cjs)}

/-- Imports of reachable files are reachable. -/
def Closed (g : Graph) (reachable : List Nat) : Prop :=
  ∀ i ∈ reachable, ∀ record ∈ g.importRecords i, ∀ j, record.sourceIndex = some j → j ∈ reachable

theorem Closed.starReach (h : g.Closed reachable) {i j : Nat} (hi : i ∈ reachable)
    (hreach : g.StarReach i j) : j ∈ reachable := by
  induction hreach with
  | refl => exact hi
  | tail _ hstep ih =>
    obtain ⟨id, -, hsource⟩ := hstep
    obtain ⟨record, hrecord, hsource⟩ := Option.bind_eq_some_iff.mp hsource
    exact h _ ih record (List.mem_of_getElem? hrecord) _ hsource

section Turn
variable {reachable : List Nat} {first ms : Modules} (id : Nat)

/-- A module that needs a wrapper already. -/
theorem turn_own (h : g.Progress reachable first ms) :
    ∃ ms', Settles (fun fuel => if (ms id).flags.wrap = .none then some ms else g.wrap fuel ms id) ms' ∧
      g.Steps {i | i ≠ runtime ∧ i = id ∧ (first id).flags.wrap ≠ .none} ms ms' ∧ g.Progress reachable first ms' := by
  by_cases hdid : id ∈ wrapMarks ms
  · refine ⟨ms, .of_succ (.of_forall fun fuel => ?_), ⟨.covered ?_, fun _ hi => hi⟩, h⟩
    · split
      · rfl
      · exact if_pos hdid
    · rintro i ⟨-, rfl, -⟩
      exact hdid
  · have hflags := h.flags_of_not_did hdid
    by_cases hwrap : (ms id).flags.wrap = .none
    · refine ⟨ms, .of_forall fun fuel => if_pos hwrap, ⟨.covered ?_, fun _ hi => hi⟩, h⟩
      rintro i ⟨-, -, hne⟩
      exact absurd (hflags ▸ hwrap) hne
    · obtain ⟨ms', hsettles, hwraps⟩ := wrap_spec _ id ms (Nat.lt_succ_self _)
      have htargets : {i | i = id ∧ i ≠ runtime} = {i | i ≠ runtime ∧ i = id ∧ (first id).flags.wrap ≠ .none} := by
        rw [hflags] at hwrap
        ext i
        simp [hwrap, and_comm]
      rw [htargets] at hwraps
      refine ⟨ms', ?_, h.wraps hwraps⟩
      simp only [if_neg hwrap]
      exact hsettles

/-- The search behind `export *`. -/
theorem turn_search (h : g.Progress reachable first ms) (hid : ∀ i, g.StarReach id i → i ∈ reachable) :
    ∃ ms', Settles (fun fuel => if (g.file id).exportStarRecords = [] then some ms
        else (g.hasDynamicExportsDueToExportStar fuel id ⟨ms, ∅⟩).map fun (_, s) => s.modules) ms' ∧
      g.Steps ∅ ms ms' ∧ g.Progress reachable first ms' ∧ g.Settled first id ms' := by
  by_cases hstars : (g.file id).exportStarRecords = []
  · refine ⟨ms, .of_forall fun fuel => if_pos hstars, (sequential_steps g).nothing ms, h, ?_⟩
    rintro ⟨t, hreach, hunknown⟩
    have hnone : ∀ j, j ∉ g.stars id := by
      rintro j ⟨id', hid', -⟩
      rw [hstars] at hid'
      cases hid'
    obtain rfl : id = t := by
      rcases Relation.ReflTransGen.cases_head hreach with heq | ⟨j, hj, -⟩
      · exact heq
      · exact absurd hj (hnone j)
    rcases h.unknown_mono hunknown with hdynamic | ⟨id', hid', -⟩
    · exact hdynamic
    · rw [hstars] at hid'
      cases hid'
  · obtain ⟨b, s', hsettles, hfound, hmissed⟩ := hasDynamicExports_spec _ id ⟨ms, ∅⟩ (Nat.lt_succ_self _)
    have hcall := hsettles.map fun (_, s) => s.modules
    refine ⟨s'.modules, ?_, ?_⟩
    · simp only [if_neg hstars]
      exact hcall
    · cases b with
      | true =>
        obtain ⟨⟨-, hraised⟩, hdynamic⟩ := hfound rfl
        obtain ⟨hsteps, hprogress⟩ := h.raised hid hraised
        exact ⟨hsteps, hprogress, fun _ => hdynamic⟩
      | false =>
        obtain ⟨hsame, hlooked⟩ := hmissed rfl
        rw [hsame]
        refine ⟨(sequential_steps g).nothing ms, h, ?_⟩
        rintro ⟨t, hreach, hunknown⟩
        have hempty : {i | i ∈ (∅ : Finset Nat)} = (∅ : Set Nat) := by simp
        rw [hempty] at hlooked
        exact absurd ⟨t, hreach, h.unknown_mono hunknown⟩ hlooked.not_exists

/-- The imports that are CommonJS. -/
theorem turn_imports (h : g.Progress reachable first ms) :
    ∃ ms', Settles (fun fuel => (g.importRecords id).foldlM (visitImport fun ms other =>
        if (ms other).exportsKind = .cjs then g.wrap fuel ms other else some ms) ms) ms' ∧
      g.Steps {i | i ≠ runtime ∧ ∃ record ∈ g.importRecords id, record.sourceIndex = some i ∧
        (first i).exportsKind = .cjs} ms ms' ∧ g.Progress reachable first ms' := by
  obtain ⟨ms', hsettles, hsteps, hprogress⟩ := settles_imports (sequential_steps g) (g.Progress reachable first)
    (fun other => {i | i = other ∧ i ≠ runtime ∧ (first i).exportsKind = .cjs})
    (fun fuel => visitImport fun ms other =>
      if (ms other).exportsKind = .cjs then g.wrap fuel ms other else some ms)
    (fun fuel ms record => rfl) (g.importRecords id) (fun record _ other _ ms h => by
      by_cases hcjs : (ms other).exportsKind = .cjs
      · obtain ⟨ms', hsettles, hwraps⟩ := wrap_spec _ other ms (Nat.lt_succ_self _)
        have htargets : {i | i = other ∧ i ≠ runtime} =
            {i | i = other ∧ i ≠ runtime ∧ (first i).exportsKind = .cjs} := by
          ext i
          constructor
          · rintro ⟨rfl, hne⟩
            exact ⟨rfl, hne, (h.cjs_iff i).mp hcjs⟩
          · rintro ⟨heq, hne, -⟩
            exact ⟨heq, hne⟩
        rw [htargets] at hwraps
        simp only [if_pos hcjs]
        exact ⟨ms', hsettles, h.wraps hwraps⟩
      · have hempty : {i | i = other ∧ i ≠ runtime ∧ (first i).exportsKind = .cjs} = ∅ := by
          ext i
          simp only [Set.mem_ofPred_eq, Set.mem_empty_iff_false, iff_false]
          rintro ⟨rfl, -, hfirst⟩
          exact hcjs ((h.cjs_iff i).mpr hfirst)
        simp only [if_neg hcjs, hempty]
        exact ⟨ms, .of_forall fun fuel => rfl, (sequential_steps g).nothing ms, h⟩) ms h
  refine ⟨ms', hsettles, ?_, hprogress⟩
  have htargets : {j | ∃ record ∈ g.importRecords id, ∃ other, record.sourceIndex = some other ∧
      j ∈ {i | i = other ∧ i ≠ runtime ∧ (first i).exportsKind = .cjs}} =
      {i | i ≠ runtime ∧ ∃ record ∈ g.importRecords id, record.sourceIndex = some i ∧ (first i).exportsKind = .cjs} := by
    ext j
    constructor
    · rintro ⟨record, hrecord, other, hsource, rfl, hne, hcjs⟩
      exact ⟨hne, record, hrecord, hsource, hcjs⟩
    · rintro ⟨hne, record, hrecord, hsource, hcjs⟩
      exact ⟨record, hrecord, j, hsource, rfl, hne, hcjs⟩
  rwa [htargets] at hsteps

theorem wrapDependencies_spec (h : g.Progress reachable first ms) (hid : ∀ i, g.StarReach id i → i ∈ reachable) :
    ∃ ms', Settles (fun fuel => g.wrapDependencies fuel ms id) ms' ∧ g.Steps (g.turnTargets first id) ms ms' ∧
      g.Progress reachable first ms' ∧ g.Settled first id ms' := by
  unfold wrapDependencies
  by_cases hrange : g.files.length ≤ id
  · simp only [if_pos hrange]
    refine ⟨ms, .of_forall fun fuel => rfl, ?_, h, ?_⟩
    · have hempty : g.turnTargets first id = ∅ := by
        ext i
        simp only [turnTargets, Set.mem_ofPred_eq, Set.mem_empty_iff_false, iff_false]
        exact fun hi => Nat.not_le_of_lt hi.2.1 hrange
      rw [hempty]
      exact (sequential_steps g).nothing ms
    · obtain ⟨ms', hsettles, -, -, hsettled⟩ := turn_search id h hid
      have hstars : (g.file id).exportStarRecords = [] := by
        rw [file_of_le hrange]
        rfl
      simp only [if_pos hstars] at hsettles
      obtain rfl := hsettles.unique (.of_forall fun fuel => rfl)
      exact hsettled
  · simp only [if_neg hrange]
    obtain ⟨ms₁, hfirst, hsteps₁, h₁⟩ := turn_own id h
    obtain ⟨ms₂, hsecond, hsteps₂, h₂, hsettled⟩ := turn_search id h₁ hid
    obtain ⟨ms₃, hthird, hsteps₃, h₃⟩ := turn_imports id h₂
    refine ⟨ms₃, hfirst.bind (hsecond.bind hthird), ?_, h₃, fun hunknown => hsteps₃.2 id (hsettled hunknown)⟩
    have hall := (sequential_steps g).append ((sequential_steps g).append hsteps₁ hsteps₂) hsteps₃
    have htargets : {i | i ≠ runtime ∧ i = id ∧ (first id).flags.wrap ≠ .none} ∪ ∅ ∪
        {i | i ≠ runtime ∧ ∃ record ∈ g.importRecords id, record.sourceIndex = some i ∧ (first i).exportsKind = .cjs} =
        g.turnTargets first id := by
      ext i
      simp only [turnTargets, Set.mem_union, Set.mem_ofPred_eq, Set.mem_empty_iff_false, or_false]
      have hlt := Nat.lt_of_not_le hrange
      tauto
    rwa [htargets] at hall

end Turn

/-! ### Both steps -/

/-- All that the two steps say of the modules. -/
structure Outcome (g : Graph) (reachable : List Nat) (first ms : Modules) : Prop where
  marked : Marked g.imports (⋃ id ∈ reachable, g.turnTargets first id) ∅ (wrapMarks ms)
  progress : g.Progress reachable first ms
  settled : ∀ id ∈ reachable, g.Settled first id ms

theorem scan_spec (hclosed : g.Closed reachable) :
    ∃ ms, Settles (g.scanImportsAndExports reachable) ms ∧ g.Outcome reachable (g.figureOutCommonJs reachable) ms := by
  generalize hfirst : g.figureOutCommonJs reachable = first
  have hfresh : ∀ i, (first i).flags.didWrapDependencies = false := fun i => by
    rw [← hfirst]
    exact (figuredOut g reachable i).fresh
  have hstart : g.Progress reachable first first := by
    refine ⟨fun i => .inl rfl, fun i => ?_⟩
    rw [hfresh i]
    rfl
  obtain ⟨ms, hsettles, hsteps, hprogress, hsettled⟩ := settles_foldlM (sequential_steps g) (g.turnTargets first)
    (g.Progress reachable first) (g.Settled first)
    (fun id _ _ _ hsteps hsettled hunknown => hsteps.2 id (hsettled hunknown)) reachable (f := g.wrapDependencies)
    (fun id hid ms h => wrapDependencies_spec id h fun i => hclosed.starReach hid) first hstart
  have hmarks : wrapMarks first = ∅ := by
    ext i
    simp [wrapMarks, hfresh]
  refine ⟨ms, ?_, hmarks ▸ hsteps.1, hprogress, hsettled⟩
  subst hfirst
  exact hsettles

namespace Outcome
variable {reachable : List Nat} {first ms ms' : Modules}

theorem fallback_iff (h : g.Outcome reachable first ms) {i : Nat} (hi : i ∈ reachable) (hne : (ms i).exportsKind ≠ .cjs) :
    (ms i).exportsKind = .esmWithDynamicFallback ↔ ∃ t, g.StarReach i t ∧ g.Unknown first t := by
  constructor
  · intro hfallback
    exact h.progress.exists_unknown (.inl (.inr hfallback))
  · intro hunknown
    exact (h.settled i hi hunknown).resolve_left hne

/-- Nothing is left open. -/
theorem unique (h : g.Outcome reachable first ms) (h' : g.Outcome reachable first ms') : ms = ms' := by
  have hmarks : wrapMarks ms = wrapMarks ms' := h.marked.unique h'.marked
  funext i
  have hcjs : (ms i).exportsKind = .cjs ↔ (ms' i).exportsKind = .cjs :=
    (h.progress.cjs_iff i).trans (h'.progress.cjs_iff i).symm
  have hkind : (ms i).exportsKind = (ms' i).exportsKind := by
    rcases h.progress.kind i with heq | ⟨hi, hne, heq, hreach⟩
    · rcases h'.progress.kind i with heq' | ⟨hi, hne, heq', hreach⟩
      · exact heq.trans heq'.symm
      · rw [heq']
        exact (h.settled i hi hreach).resolve_left (mt (h.progress.cjs_iff i).mp hne)
    · rw [heq]
      exact ((h'.settled i hi hreach).resolve_left (mt (h'.progress.cjs_iff i).mp hne)).symm
  have hdid : (ms i).flags.didWrapDependencies = (ms' i).flags.didWrapDependencies := by
    have hmem : i ∈ wrapMarks ms ↔ i ∈ wrapMarks ms' := by rw [hmarks]
    exact Bool.eq_iff_iff.mpr hmem
  have hflags : (ms i).flags = (ms' i).flags := by
    rw [h.progress.flags i, h'.progress.flags i, hdid]
  exact Module.ext hkind hflags

theorem unknown_iff (h : g.Outcome reachable (g.figureOutCommonJs reachable) ms) (t : Nat) :
    g.Unknown (g.figureOutCommonJs reachable) t ↔
      (ms t).exportsKind = .cjs ∨ (g.file t).exportsKind = .esmWithDynamicFallback ∨ g.External t := by
  unfold Unknown
  rw [h.progress.cjs_iff t, or_assoc]
  by_cases hcjs : (g.figureOutCommonJs reachable t).exportsKind = .cjs
  · simp only [hcjs, true_or]
  · rw [(figuredOut g reachable t).kept hcjs]

/-- What a wrapped module imports is wrapped. -/
theorem wrapped_imports (hclosed : g.Closed reachable) (h : g.Outcome reachable (g.figureOutCommonJs reachable) ms)
    {i j : Nat} (hi : i ≠ runtime) (hwrap : (ms i).flags.wrap ≠ .none) (hj : j ∈ g.imports i) :
    (ms j).flags.wrap ≠ .none := by
  have hmarked : i ∈ wrapMarks ms := by
    by_contra hdid
    rw [h.progress.flags_of_not_did hdid] at hwrap
    apply hdid
    have hmem : i ∈ reachable ∧ i < g.files.length := by
      have hpulled : ∀ r ∈ g.pulls reachable i, i ∈ reachable ∧ i < g.files.length := by
        rintro r ⟨hlt, id, hlooked, hr, hsource⟩
        exact ⟨hclosed id hlooked.1 r hr i hsource, hlt⟩
      have hfigured := figuredOut g reachable i
      cases hkind : (g.figureOutCommonJs reachable i).flags.wrap with
      | none => exact absurd hkind hwrap
      | cjs =>
        rcases hfigured.wrap_cjs_iff.mp hkind with ⟨r, hr, -⟩ | ⟨hturned, -⟩
        · exact hpulled r hr
        · exact ⟨hturned.1.1, hturned.1.2.1⟩
      | esm =>
        obtain ⟨-, r, hr, -⟩ := hfigured.wrap_esm_iff.mp hkind
        exact hpulled r hr
    refine h.marked.reached (Set.mem_iUnion₂.mpr ⟨i, hmem.1, hi, hmem.2, .inl ⟨rfl, hwrap⟩⟩)
  have hmem : (ms j).flags.didWrapDependencies = true := h.marked.closed i hmarked (Set.notMem_empty i) hj
  rw [h.progress.flags j, hmem]
  show wrapKind _ ≠ .none
  unfold wrapKind
  split
  · split <;> exact fun hnone => nomatch hnone
  · assumption

/-- A CommonJS module that is imported has the wrapper of one. -/
theorem wrap_cjs (h : g.Outcome reachable (g.figureOutCommonJs reachable) ms) {i j : Nat} (hi : i ∈ reachable)
    (hj : j ∈ g.imports i) (hcjs : (ms j).exportsKind = .cjs) : (ms j).flags.wrap = .cjs := by
  obtain ⟨hne, record, hrecord, hsource⟩ := hj
  have hfirst := (h.progress.cjs_iff j).mp hcjs
  have hrange : i < g.files.length := by
    by_contra hrange
    unfold importRecords at hrecord
    rw [file_of_le (Nat.le_of_not_lt hrange)] at hrecord
    cases hrecord
  have hmem : (ms j).flags.didWrapDependencies = true := h.marked.reached
    (Set.mem_iUnion₂.mpr ⟨i, hi, hne, hrange, .inr ⟨record, hrecord, hsource, hfirst⟩⟩)
  rw [h.progress.flags j, hmem]
  show wrapKind _ = .cjs
  unfold wrapKind
  rw [if_pos hfirst]
  split
  · rfl
  · rename_i hwrap
    cases hkind : (g.figureOutCommonJs reachable j).flags.wrap with
    | none => exact absurd hkind hwrap
    | cjs => rfl
    | esm =>
      have hesm := (figuredOut g reachable j).esm_of_wrap hkind
      rw [hfirst] at hesm
      cases hesm

end Outcome

/-- The modules that fall back, the wrappers, and that the order of the files says nothing. -/
theorem scanImportsAndExports_exact (g : Graph) (reachable : List Nat) (hclosed : g.Closed reachable) :
    ∃ ms, Settles (g.scanImportsAndExports reachable) ms ∧
      (∀ i ∈ reachable, (ms i).exportsKind ≠ .cjs → ((ms i).exportsKind = .esmWithDynamicFallback ↔
        ∃ t, g.StarReach i t ∧
          ((ms t).exportsKind = .cjs ∨ (g.file t).exportsKind = .esmWithDynamicFallback ∨ g.External t))) ∧
      (∀ i j, i ≠ runtime → (ms i).flags.wrap ≠ .none → Relation.ReflTransGen (fun i j => j ∈ g.imports i) i j →
        (ms j).flags.wrap ≠ .none) ∧
      (∀ i ∈ reachable, ∀ j ∈ g.imports i, (ms j).exportsKind = .cjs → (ms j).flags.wrap = .cjs) ∧
      ∀ reachable', (∀ i, i ∈ reachable' ↔ i ∈ reachable) → Settles (g.scanImportsAndExports reachable') ms := by
  obtain ⟨ms, hsettles, h⟩ := scan_spec hclosed
  refine ⟨ms, hsettles, fun i hi hne => ?_, fun i j hi hwrap hreach => ?_, fun i hi j hj => h.wrap_cjs hi hj,
    fun reachable' hsame => ?_⟩
  · rw [h.fallback_iff hi hne]
    simp only [h.unknown_iff]
  · have hboth : j ≠ runtime ∧ (ms j).flags.wrap ≠ .none := by
      induction hreach with
      | refl => exact ⟨hi, hwrap⟩
      | tail _ hj ih => exact ⟨hj.1, h.wrapped_imports hclosed ih.1 ih.2 hj⟩
    exact hboth.2
  · have hclosed' : g.Closed reachable' := fun i hi record hrecord j hj =>
      (hsame j).mpr (hclosed i ((hsame i).mp hi) record hrecord j hj)
    obtain ⟨ms', hsettles', h'⟩ := scan_spec hclosed'
    have hfirst := figureOutCommonJs_congr g hsame
    have htargets : (⋃ id ∈ reachable', g.turnTargets (g.figureOutCommonJs reachable) id) =
        ⋃ id ∈ reachable, g.turnTargets (g.figureOutCommonJs reachable) id := by
      simp only [hsame]
    rw [hfirst] at h'
    have hsame' : g.Outcome reachable (g.figureOutCommonJs reachable) ms' :=
      ⟨htargets ▸ h'.marked, ⟨fun i => (h'.progress.kind i).imp_right fun ⟨hi, hrest⟩ => ⟨(hsame i).mp hi, hrest⟩,
        h'.progress.flags⟩, fun id hid => h'.settled id ((hsame id).mpr hid)⟩
    exact h.unique hsame' ▸ hsettles'

theorem closed_of_all (h : ∀ i ∈ reachable, ∀ record ∈ g.importRecords i,
    (record.sourceIndex.all fun j => decide (j ∈ reachable)) = true) : g.Closed reachable :=
  fun i hi record hrecord j hj => of_decide_eq_true ((Option.all_eq_true ..).mp (h i hi record hrecord) j hj)

/-- `export *` to another file. -/
def exportStar (j : Nat) : ImportRecord := ⟨.stmt, some j, false, false⟩

/-- The runtime, and two files that pass on the exports of each other, the second of them also those of a CommonJS file. -/
def starCycle : Graph where
  files := [{File.empty with exportsKind := .esm},
    {File.empty with importRecords := [exportStar 2], exportStarRecords := [0], exportsKind := .esm, isEntryPoint := true},
    {File.empty with importRecords := [exportStar 1, exportStar 3], exportStarRecords := [0, 1], exportsKind := .esm},
    {File.empty with exportsKind := .cjs}]
  outputFormat := .esm
  codeSplitting := false

theorem scanImportsAndExports_exact_starCycle :
    starCycle.Closed [0, 1, 2, 3] ∧ ∃ ms, Settles (starCycle.scanImportsAndExports [0, 1, 2, 3]) ms ∧
      ((ms 1).exportsKind ≠ .cjs → ((ms 1).exportsKind = .esmWithDynamicFallback ↔
        ∃ t, starCycle.StarReach 1 t ∧ ((ms t).exportsKind = .cjs ∨
          (starCycle.file t).exportsKind = .esmWithDynamicFallback ∨ starCycle.External t))) ∧
      Settles (starCycle.scanImportsAndExports [3, 0, 2, 1]) ms := by
  have hclosed : starCycle.Closed [0, 1, 2, 3] := closed_of_all (by decide)
  obtain ⟨ms, hsettles, hfallback, -, -, horder⟩ := scanImportsAndExports_exact starCycle [0, 1, 2, 3] hclosed
  exact ⟨hclosed, ms, hsettles, hfallback 1 (by decide), horder [3, 0, 2, 1] (by simp; omega)⟩

/-- A file that passes on the exports of one that falls back from the start. -/
def startsDynamic : Graph where
  files := [{File.empty with exportsKind := .esm},
    {File.empty with importRecords := [exportStar 2], exportStarRecords := [0], exportsKind := .esm, isEntryPoint := true},
    {File.empty with exportsKind := .esmWithDynamicFallback}]
  outputFormat := .esm
  codeSplitting := false

theorem exportStarRecords_startsDynamic (h : i ≠ 1) : (startsDynamic.file i).exportStarRecords = [] := by
  match i, h with
  | 0, _ | 2, _ | _ + 3, _ => rfl

theorem stars_startsDynamic {i j : Nat} (h : j ∈ startsDynamic.stars i) : i = 1 ∧ j = 2 := by
  obtain ⟨id, hid, hsource⟩ := h
  by_cases hi : i = 1
  · subst hi
    obtain rfl : id = 0 := List.mem_singleton.mp hid
    exact ⟨rfl, (Option.some.inj hsource).symm⟩
  · rw [exportStarRecords_startsDynamic hi] at hid
    cases hid

theorem not_external_startsDynamic (i : Nat) : ¬startsDynamic.External i := by
  rintro ⟨id, hid, hsource, -⟩
  by_cases hi : i = 1
  · subst hi
    obtain rfl : id = 0 := List.mem_singleton.mp hid
    cases hsource
  · rw [exportStarRecords_startsDynamic hi] at hid
    cases hid

theorem scanImportsAndExports_startsDynamic :
    ∃ ms, startsDynamic.scanImportsAndExports [0, 2, 1] 3 = some ms ∧ (ms 1).exportsKind = .esmWithDynamicFallback ∧
      ¬∃ t, startsDynamic.StarReach 1 t ∧ ((ms t).exportsKind = .cjs ∨ startsDynamic.External t) := by
  have hresult : (startsDynamic.scanImportsAndExports [0, 2, 1] 3).map
      (fun ms => ((ms 1).exportsKind, (ms 2).exportsKind)) = some (.esmWithDynamicFallback, .esmWithDynamicFallback) := by
    decide
  obtain ⟨ms, hms, hkinds⟩ := Option.map_eq_some_iff.mp hresult
  obtain ⟨hfirst, hsecond⟩ := Prod.mk.inj hkinds
  refine ⟨ms, hms, hfirst, ?_⟩
  rintro ⟨t, hreach, hcjs | hexternal⟩
  · have ht : t = 1 ∨ t = 2 := by
      clear hcjs
      induction hreach with
      | refl => exact .inl rfl
      | tail _ hstep _ => exact .inr (stars_startsDynamic hstep).2
    rcases ht with rfl | rfl
    · rw [hfirst] at hcjs
      cases hcjs
    · rw [hsecond] at hcjs
      cases hcjs
  · exact not_external_startsDynamic t hexternal

end Graph
end Funbun.Bundler.DependencyWrapper
