import Funbun.Bundler.DependencyWrapper

/-! Step 1 says of each module how it is imported, in whatever order the files are looked at. -/
namespace Funbun.Bundler.DependencyWrapper
open ImportBinding (ExportsKind)

namespace Graph
variable (g : Graph)

/-! ### One record -/

/-- The record makes the file that it imports a CommonJS file. -/
def forces (other : File) (kind : ExportsKind) (record : ImportRecord) : Bool :=
  match record.kind with
  | .stmt =>
    (record.containsImportStar || record.containsDefaultAlias) && !other.hasLazyExport && !other.forceCjsToEsm &&
      kind == .none || record.containsDefaultAlias && other.forceCjsToEsm
  | .require => kind != .esm
  | .dynamic => !g.codeSplitting && kind != .esm
  | _ => false

/-- The record calls for a wrapper of some kind. -/
def requires (record : ImportRecord) : Bool :=
  record.kind = .require || record.kind = .dynamic && !g.codeSplitting

theorem figureOutRecord_eq (other : File) (record : ImportRecord) (m : Module) :
    g.figureOutRecord other record m = if g.forces other m.exportsKind record then m.setCjs
      else if g.requires record then {m with flags := {m.flags with wrap := .esm}} else m := by
  unfold figureOutRecord forces requires require
  cases record.kind with
  | stmt =>
    cases hdefault : record.containsDefaultAlias && other.forceCjsToEsm <;>
      cases hstar : (record.containsImportStar || record.containsDefaultAlias) && !other.hasLazyExport &&
        !other.forceCjsToEsm && m.exportsKind == .none <;> simp [Module.setCjs]
  | require => by_cases hkind : m.exportsKind = .esm <;> simp [hkind]
  | dynamic => cases g.codeSplitting <;> by_cases hkind : m.exportsKind = .esm <;> simp [hkind]
  | _ => simp

/-- The file may not do without a wrapper of its own if it is CommonJS. -/
def OwnWrapper (id : Nat) : Prop :=
  ((!(g.file id).isEntryPoint || g.outputFormat == .iife || g.outputFormat == .esm) : Bool) = true

/-- A module after some records that import it, and after its own turn if it was `turned`. -/
structure FiguredOut (j : Nat) (pulls : Set ImportRecord) (turned : Prop) (m : Module) : Prop where
  fresh : m.flags.didWrapDependencies = false
  cjs_iff : m.exportsKind = .cjs ↔ (g.file j).exportsKind = .cjs ∨
    ∃ r ∈ pulls, g.forces (g.file j) (g.file j).exportsKind r = true
  kept : m.exportsKind ≠ .cjs → m.exportsKind = (g.file j).exportsKind
  wrap_cjs_iff : m.flags.wrap = .cjs ↔ (∃ r ∈ pulls, g.forces (g.file j) (g.file j).exportsKind r = true) ∨
    turned ∧ (g.file j).exportsKind = .cjs
  wrap_esm_iff : m.flags.wrap = .esm ↔ m.flags.wrap ≠ .cjs ∧ ∃ r ∈ pulls, g.requires r = true

variable {g} {j : Nat} {rs : Set ImportRecord} {turned : Prop} {m : Module}

namespace FiguredOut

theorem congr {rs' : Set ImportRecord} {turned' : Prop} (h : g.FiguredOut j rs turned m) (hpulls : rs = rs')
    (hturned : turned ↔ turned') : g.FiguredOut j rs' turned' m := by
  rw [← hpulls, ← propext hturned]
  exact h

theorem unique {m' : Module} (h : g.FiguredOut j rs turned m) (h' : g.FiguredOut j rs turned m') : m = m' := by
  have hcjs : m.exportsKind = .cjs ↔ m'.exportsKind = .cjs := h.cjs_iff.trans h'.cjs_iff.symm
  have hkind : m.exportsKind = m'.exportsKind := by
    by_cases hkind : m.exportsKind = .cjs
    · rw [hkind, hcjs.mp hkind]
    · rw [h.kept hkind, h'.kept (mt hcjs.mpr hkind)]
  have hwrapCjs : m.flags.wrap = .cjs ↔ m'.flags.wrap = .cjs := h.wrap_cjs_iff.trans h'.wrap_cjs_iff.symm
  have hwrapEsm : m.flags.wrap = .esm ↔ m'.flags.wrap = .esm := by
    rw [h.wrap_esm_iff, h'.wrap_esm_iff, Ne, Ne, hwrapCjs]
  have hwrap : m.flags.wrap = m'.flags.wrap := by
    cases hw : m.flags.wrap <;> cases hw' : m'.flags.wrap <;> simp_all
  obtain ⟨kind, did, wrap⟩ := m
  obtain ⟨kind', did', wrap'⟩ := m'
  obtain rfl : did = false := h.fresh
  obtain rfl : did' = false := h'.fresh
  obtain rfl : kind = kind' := hkind
  obtain rfl : wrap = wrap' := hwrap
  rfl

/-- A module that some record forced is wrapped already. -/
theorem of_cjs (h : g.FiguredOut j rs turned m) (hkind : m.exportsKind = .cjs) (hne : (g.file j).exportsKind ≠ .cjs) :
    (∃ r ∈ rs, g.forces (g.file j) (g.file j).exportsKind r = true) ∧ m.flags.wrap = .cjs := by
  have hforced := (h.cjs_iff.mp hkind).resolve_left hne
  exact ⟨hforced, h.wrap_cjs_iff.mpr (.inl hforced)⟩

/-- A module with the wrapper of an ES module is one. -/
theorem esm_of_wrap (h : g.FiguredOut j rs turned m) (hwrap : m.flags.wrap = .esm) : m.exportsKind = .esm := by
  obtain ⟨hne, r, hr, hrequires⟩ := h.wrap_esm_iff.mp hwrap
  have hnone : ∀ r ∈ rs, g.forces (g.file j) (g.file j).exportsKind r ≠ true := fun r hr hforces =>
    hne (h.wrap_cjs_iff.mpr (.inl ⟨r, hr, hforces⟩))
  have hesm : (g.file j).exportsKind = .esm := by
    by_contra hkind
    apply hnone r hr
    unfold requires at hrequires
    unfold forces
    cases hrecord : r.kind <;> simp_all
  rw [← hesm]
  apply h.kept
  intro hcjs
  rcases h.cjs_iff.mp hcjs with hcjs | ⟨r, hr, hforces⟩
  · rw [hesm] at hcjs
    cases hcjs
  · exact hnone r hr hforces

theorem kind_cases (h : g.FiguredOut j rs turned m) :
    m.exportsKind = (g.file j).exportsKind ∨ m.exportsKind = .cjs ∧ (g.file j).exportsKind ≠ .cjs := by
  by_cases hkind : m.exportsKind = .cjs
  · by_cases hcjs : (g.file j).exportsKind = .cjs
    · exact .inl (hkind.trans hcjs.symm)
    · exact .inr ⟨hkind, hcjs⟩
  · exact .inl (h.kept hkind)

theorem eq_esm_of_requires {r : ImportRecord} {kind : ExportsKind} (hrequires : g.requires r = true)
    (hforces : ¬g.forces (g.file j) kind r = true) : kind = .esm := by
  unfold requires at hrequires
  unfold forces at hforces
  cases hrecord : r.kind <;> simp_all

/-- A record is looked at. -/
theorem pull (h : g.FiguredOut j rs turned m) (r : ImportRecord) :
    g.FiguredOut j (insert r rs) turned (g.figureOutRecord (g.file j) r m) := by
  rw [figureOutRecord_eq]
  by_cases hforces : g.forces (g.file j) m.exportsKind r = true
  · rw [if_pos hforces]
    have hforced : ∃ r' ∈ insert r rs, g.forces (g.file j) (g.file j).exportsKind r' = true := by
      rcases h.kind_cases with hkind | ⟨hkind, hne⟩
      · exact ⟨r, .inl rfl, hkind ▸ hforces⟩
      · obtain ⟨r', hr', hforces'⟩ := (h.of_cjs hkind hne).1
        exact ⟨r', .inr hr', hforces'⟩
    exact ⟨h.fresh, iff_of_true rfl (.inr hforced), fun hne => absurd rfl hne, iff_of_true rfl (.inl hforced),
      iff_of_false (fun hesm => nomatch hesm) fun hne => hne.1 rfl⟩
  · rw [if_neg hforces]
    by_cases hrequires : g.requires r = true
    · rw [if_pos hrequires]
      have hesm := eq_esm_of_requires hrequires hforces
      have hne : m.exportsKind ≠ .cjs := by
        rw [hesm]
        exact fun hcjs => nomatch hcjs
      have hkind := h.kept hne
      have hnone : ¬∃ r' ∈ insert r rs, g.forces (g.file j) (g.file j).exportsKind r' = true := by
        rintro ⟨r', rfl | hr', hforces'⟩
        · exact hforces (hkind ▸ hforces')
        · exact hne (h.cjs_iff.mpr (.inr ⟨r', hr', hforces'⟩))
      refine ⟨h.fresh, iff_of_false hne ?_, h.kept, iff_of_false (fun hcjs => nomatch hcjs) ?_,
        iff_of_true rfl ⟨(fun hcjs => nomatch hcjs), r, .inl rfl, hrequires⟩⟩
      · rintro (hcjs | hforced)
        · exact hne (h.cjs_iff.mpr (.inl hcjs))
        · exact hnone hforced
      · rintro (hforced | ⟨-, hcjs⟩)
        · exact hnone hforced
        · exact hne (h.cjs_iff.mpr (.inl hcjs))
    · rw [if_neg hrequires]
      have hrequired : (∃ r' ∈ insert r rs, g.requires r' = true) ↔ ∃ r' ∈ rs, g.requires r' = true := by
        constructor
        · rintro ⟨r', rfl | hr', h'⟩
          · exact absurd h' hrequires
          · exact ⟨r', hr', h'⟩
        · rintro ⟨r', hr', h'⟩
          exact ⟨r', .inr hr', h'⟩
      have hforced : (∃ r' ∈ rs, g.forces (g.file j) (g.file j).exportsKind r' = true) ↔
          ∃ r' ∈ insert r rs, g.forces (g.file j) (g.file j).exportsKind r' = true := by
        constructor
        · rintro ⟨r', hr', h'⟩
          exact ⟨r', .inr hr', h'⟩
        · rintro ⟨r', rfl | hr', h'⟩
          · rcases h.kind_cases with hkind | ⟨hkind, hne⟩
            · exact absurd (hkind ▸ h') hforces
            · exact (h.of_cjs hkind hne).1
          · exact ⟨r', hr', h'⟩
      refine ⟨h.fresh, ?_, h.kept, ?_, ?_⟩
      · rw [← hforced]
        exact h.cjs_iff
      · rw [← hforced]
        exact h.wrap_cjs_iff
      · rw [hrequired]
        exact h.wrap_esm_iff

/-- The turn of the file itself. -/
theorem own (h : g.FiguredOut j rs turned m) :
    g.FiguredOut j rs (turned ∨ g.OwnWrapper j) (g.figureOutOwn j m) := by
  unfold figureOutOwn
  by_cases hown : g.OwnWrapper j
  · have hown' := hown
    unfold OwnWrapper at hown'
    rw [hown', Bool.and_true]
    by_cases hkind : m.exportsKind = .cjs
    · rw [if_pos (beq_iff_eq.mpr hkind)]
      refine ⟨h.fresh, h.cjs_iff, h.kept, iff_of_true rfl ?_, iff_of_false (fun hesm => nomatch hesm) fun hne => hne.1 rfl⟩
      exact (h.cjs_iff.mp hkind).symm.imp_right fun hcjs => ⟨.inr hown, hcjs⟩
    · rw [if_neg (mt beq_iff_eq.mp hkind)]
      have hcjs : (g.file j).exportsKind ≠ .cjs := fun hcjs => hkind (h.cjs_iff.mpr (.inl hcjs))
      exact ⟨h.fresh, h.cjs_iff, h.kept, by simpa [hcjs] using h.wrap_cjs_iff, h.wrap_esm_iff⟩
  · have hown' := hown
    unfold OwnWrapper at hown'
    rw [Bool.eq_false_iff.mpr hown', Bool.and_false, if_neg Bool.false_ne_true]
    exact h.congr rfl (by simp [hown])

end FiguredOut

theorem figuredOut_init (g : Graph) (j : Nat) : g.FiguredOut j ∅ False (g.init j) where
  fresh := rfl
  cjs_iff := by simp [init]
  kept _ := rfl
  wrap_cjs_iff := by simp [init]
  wrap_esm_iff := by simp [init]

/-- The first step looks at the imports of the file. -/
def Looked (g : Graph) (reachable : List Nat) (id : Nat) : Prop :=
  id ∈ reachable ∧ id < g.files.length ∧ (g.file id).isCss = false

/-- The records that import a file. -/
def pulls (g : Graph) (reachable : List Nat) (j : Nat) : Set ImportRecord :=
  {r | j < g.files.length ∧ ∃ id, g.Looked reachable id ∧ r ∈ g.importRecords id ∧ r.sourceIndex = some j}

def Turned (g : Graph) (reachable : List Nat) (j : Nat) : Prop := g.Looked reachable j ∧ g.OwnWrapper j

variable {P : Nat → Set ImportRecord} {T : Nat → Prop} {ms : Modules}

theorem figuredOut_imports (records : List ImportRecord) (h : ∀ j, g.FiguredOut j (P j) (T j) (ms j)) (j : Nat) :
    g.FiguredOut j (P j ∪ {r | j < g.files.length ∧ r ∈ records ∧ r.sourceIndex = some j}) (T j)
      (records.foldl g.figureOutImport ms j) := by
  induction records generalizing P ms with
  | nil => exact (h j).congr (by simp) Iff.rfl
  | cons record records ih =>
    rw [List.foldl_cons]
    have hstep : ∀ j, g.FiguredOut j (P j ∪ {r | j < g.files.length ∧ r = record ∧ r.sourceIndex = some j}) (T j)
        (g.figureOutImport ms record j) := by
      intro j
      unfold figureOutImport
      cases hsource : record.sourceIndex with
      | none =>
        refine (h j).congr ?_ Iff.rfl
        ext r
        simp only [Set.mem_union, Set.mem_ofPred_eq]
        exact ⟨.inl, fun hr => hr.resolve_right fun ⟨_, heq, hsource'⟩ => by
          rw [heq, hsource] at hsource'
          cases hsource'⟩
      | some other =>
        dsimp only
        by_cases hrange : g.files.length ≤ other
        · rw [if_pos hrange]
          refine (h j).congr ?_ Iff.rfl
          ext r
          simp only [Set.mem_union, Set.mem_ofPred_eq]
          refine ⟨.inl, fun hr => hr.resolve_right fun ⟨hj, heq, hsource'⟩ => ?_⟩
          rw [heq, hsource] at hsource'
          obtain rfl := Option.some.inj hsource'
          exact Nat.not_le_of_lt hj hrange
        · rw [if_neg hrange]
          by_cases hj : j = other
          · subst hj
            rw [Function.update_self]
            refine ((h j).pull record).congr ?_ Iff.rfl
            ext r
            simp only [Set.mem_insert_iff, Set.mem_union, Set.mem_ofPred_eq]
            constructor
            · rintro (rfl | hr)
              · exact .inr ⟨Nat.lt_of_not_le hrange, rfl, hsource⟩
              · exact .inl hr
            · rintro (hr | ⟨-, rfl, -⟩)
              · exact .inr hr
              · exact .inl rfl
          · rw [Function.update_of_ne hj]
            refine (h j).congr ?_ Iff.rfl
            ext r
            simp only [Set.mem_union, Set.mem_ofPred_eq]
            refine ⟨.inl, fun hr => hr.resolve_right fun ⟨_, heq, hsource'⟩ => ?_⟩
            rw [heq, hsource] at hsource'
            exact hj (Option.some.inj hsource').symm
    refine (ih hstep).congr ?_ Iff.rfl
    ext r
    simp only [Set.mem_union, Set.mem_ofPred_eq, List.mem_cons]
    tauto

theorem figuredOut_file (id : Nat) (h : ∀ j, g.FiguredOut j (P j) (T j) (ms j)) (j : Nat) :
    g.FiguredOut j (P j ∪ g.pulls [id] j) (T j ∨ g.Turned [id] j) (g.figureOutFile ms id j) := by
  unfold figureOutFile
  by_cases hrange : g.files.length ≤ id
  · rw [if_pos hrange]
    have hnot : ∀ i, ¬g.Looked [id] i := fun i hlooked =>
      Nat.not_le_of_lt hlooked.2.1 (List.mem_singleton.mp hlooked.1 ▸ hrange)
    exact (h j).congr (by simp [pulls, hnot]) (by simp [Turned, hnot])
  · rw [if_neg hrange]
    by_cases hcss : (g.file id).isCss = true
    · rw [if_pos hcss]
      have hnot : ∀ i, ¬g.Looked [id] i := fun i hlooked => by
        obtain rfl := List.mem_singleton.mp hlooked.1
        exact Bool.false_ne_true (hlooked.2.2.symm.trans hcss)
      exact (h j).congr (by simp [pulls, hnot]) (by simp [Turned, hnot])
    · rw [if_neg hcss]
      have hlooked : ∀ i, g.Looked [id] i ↔ i = id := fun i =>
        ⟨fun hlooked => List.mem_singleton.mp hlooked.1, fun heq => by
          subst heq
          exact ⟨List.mem_singleton.mpr rfl, Nat.lt_of_not_le hrange, Bool.eq_false_iff.mpr hcss⟩⟩
      have himports := figuredOut_imports (g.importRecords id) h
      have hpulls : ∀ j, {r | j < g.files.length ∧ r ∈ g.importRecords id ∧ r.sourceIndex = some j} = g.pulls [id] j := by
        intro j
        ext r
        simp [pulls, hlooked]
      simp only [hpulls] at himports
      by_cases hj : j = id
      · subst hj
        rw [Function.update_self]
        exact (himports j).own.congr rfl (by simp [Turned, hlooked])
      · rw [Function.update_of_ne hj]
        exact (himports j).congr rfl (by simp [Turned, hlooked, hj])

theorem figuredOut_files (reachable : List Nat) (h : ∀ j, g.FiguredOut j (P j) (T j) (ms j)) (j : Nat) :
    g.FiguredOut j (P j ∪ g.pulls reachable j) (T j ∨ g.Turned reachable j) (reachable.foldl g.figureOutFile ms j) := by
  induction reachable generalizing P T ms with
  | nil => exact (h j).congr (by simp [pulls, Looked]) (by simp [Turned, Looked])
  | cons id reachable ih =>
    rw [List.foldl_cons]
    have hlooked : ∀ i, g.Looked (id :: reachable) i ↔ g.Looked [id] i ∨ g.Looked reachable i := by
      intro i
      simp only [Looked, List.mem_cons, List.not_mem_nil, or_false]
      tauto
    refine (ih (figuredOut_file id h)).congr ?_ ?_
    · ext r
      simp only [pulls, Set.mem_union, Set.mem_ofPred_eq, hlooked]
      constructor
      · rintro ((hr | ⟨hj, i, hi, hr⟩) | ⟨hj, i, hi, hr⟩)
        · exact .inl hr
        · exact .inr ⟨hj, i, .inl hi, hr⟩
        · exact .inr ⟨hj, i, .inr hi, hr⟩
      · rintro (hr | ⟨hj, i, hi | hi, hr⟩)
        · exact .inl (.inl hr)
        · exact .inl (.inr ⟨hj, i, hi, hr⟩)
        · exact .inr ⟨hj, i, hi, hr⟩
    · simp only [Turned, hlooked]
      tauto

/-- The first step says of each module how it is imported and whether its own turn came. -/
theorem figuredOut (g : Graph) (reachable : List Nat) (j : Nat) :
    g.FiguredOut j (g.pulls reachable j) (g.Turned reachable j) (g.figureOutCommonJs reachable j) :=
  (figuredOut_files reachable (figuredOut_init g) j).congr (by simp) (by simp)

theorem figureOutCommonJs_congr (g : Graph) {reachable reachable' : List Nat}
    (h : ∀ i, i ∈ reachable ↔ i ∈ reachable') : g.figureOutCommonJs reachable = g.figureOutCommonJs reachable' := by
  have hlooked : ∀ i, g.Looked reachable i ↔ g.Looked reachable' i := fun i => and_congr_left fun _ => h i
  funext j
  exact (figuredOut g reachable j).unique ((figuredOut g reachable' j).congr (by simp [pulls, hlooked])
    (by simp [Turned, hlooked]))

end Graph
end Funbun.Bundler.DependencyWrapper
