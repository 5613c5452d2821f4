import Mathlib.Data.Set.Lattice.Image
import Mathlib.Logic.Equiv.Basic
import Funbun.Bundler.TreeShaking

/-! What tree shaking leaves live.

The two walks are one depth-first marking of a graph whose nodes are files and parts: `behind` says what a node makes live,
in the code's own rules. The set left is the least one closed under the rules, in whatever order things are visited. -/
namespace Funbun.Bundler.TreeShaking
open Library.Marking

/-! ### The rules -/

inductive Node where
  | file (sourceIndex : Nat)
  | part (d : Dependency)
  deriving DecidableEq

/-- The live nodes. -/
def Liveness.nodes (s : Liveness) : Set Node := fun n =>
  match n with
  | .file i => i ∈ s.filesLive
  | .part d => d ∈ s.partsLive

@[simp] theorem Liveness.file_mem_nodes (s : Liveness) (i : Nat) :
    Node.file i ∈ s.nodes ↔ i ∈ s.filesLive := Iff.rfl

@[simp] theorem Liveness.part_mem_nodes (s : Liveness) (d : Dependency) :
    Node.part d ∈ s.nodes ↔ d ∈ s.partsLive := Iff.rfl

instance : LE Liveness := ⟨fun s t => s.filesLive ⊆ t.filesLive ∧ s.partsLive ⊆ t.partsLive⟩

theorem Liveness.nodes_subset {s t : Liveness} : s.nodes ⊆ t.nodes ↔ s ≤ t := by
  constructor
  · intro h
    exact ⟨fun i hi => h (a := .file i) hi, fun d hd => h (a := .part d) hd⟩
  · rintro ⟨hfiles, hparts⟩ n hn
    cases n with
    | file i => exact hfiles hn
    | part d => exact hparts hn

theorem Liveness.nodes_injective {s t : Liveness} (h : s.nodes = t.nodes) : s = t := by
  obtain ⟨hfiles, hparts⟩ := Liveness.nodes_subset.mp h.subset
  obtain ⟨hfiles', hparts'⟩ := Liveness.nodes_subset.mp h.superset
  cases s
  cases t
  simp only [Liveness.mk.injEq]
  exact ⟨hfiles.antisymm hfiles', hparts.antisymm hparts'⟩

variable (g : Graph)

/-- A statement-level import that keeps its part: of a module with side effects,
or of an external module not known to have none. -/
def importKept (record : ImportRecord) : Bool :=
  record.kind == .stmt &&
    match record.sourceIndex with
    | some other => g.sideEffects other == .hasSideEffects || g.options.ignoreDceAnnotations
    | none => !record.isExternalWithoutSideEffects

/-- The kept imports of a part. -/
def keptImports (file : File) (part : Part) : List ImportRecord :=
  (part.importRecordIndices.filterMap (file.importRecords[·]?)).filter (importKept g)

/-- A live file keeps this part even if nothing uses it. -/
def partRequired (file : File) (part : Part) : Bool :=
  !part.canBeRemovedIfUnused || (part.tag == .commonjsNamedExport && file.wrap == .cjs) ||
    !(keptImports g file part).isEmpty ||
    (!part.forceTreeShaking && !g.options.treeShaking && file.entryPointKind.isEntryPoint)

/-- The files that a list of import records names. -/
def targets (records : List ImportRecord) : Set Node :=
  {n | ∃ r ∈ records, ∃ j, r.sourceIndex = some j ∧ n = .file j}

/-- What a live file makes live through one of its parts. -/
def behindPart (sourceIndex : Nat) (file : File) (partIndex : Nat) : Set Node :=
  {n | ∃ part, file.parts[partIndex]? = some part ∧
    (n ∈ targets (keptImports g file part) ∨
      (partRequired g file part = true ∧ n = .part ⟨sourceIndex, partIndex⟩))}

/-- What a live node makes live. -/
def behind : Node → Set Node
  | .file i => {n | ∃ file, g.files[i]? = some file ∧
      if file.followsRecords then n ∈ targets file.importRecords
      else ∃ partIndex, n ∈ behindPart g i file partIndex}
  | .part d => {n | n = .file d.sourceIndex ∨
      ∃ part, g.part? d = some part ∧ ∃ d' ∈ part.dependencies, n = .part d'}

/-- The rules of tree shaking, started with some parts live already. Those do not
pull in anything: the walk of a part stops where its bit is set. -/
structure Rules (entryPoints : List Nat) (seeded : Finset Dependency) (s : Liveness) : Prop where
  entries : ∀ i ∈ entryPoints, i ∈ s.filesLive
  seeds : seeded ⊆ s.partsLive
  /-- A live CSS or HTML file makes live every file it imports. -/
  records : ∀ i ∈ s.filesLive, ∀ file, g.files[i]? = some file → file.followsRecords = true →
    ∀ r ∈ file.importRecords, ∀ j, r.sourceIndex = some j → j ∈ s.filesLive
  /-- A kept import statement makes live the imported file. -/
  imports : ∀ i ∈ s.filesLive, ∀ file, g.files[i]? = some file → file.followsRecords = false →
    ∀ part ∈ file.parts, ∀ r ∈ keptImports g file part, ∀ j, r.sourceIndex = some j →
      j ∈ s.filesLive
  /-- A live file makes live its parts that have to stay. -/
  parts : ∀ i ∈ s.filesLive, ∀ file, g.files[i]? = some file → file.followsRecords = false →
    ∀ p part, file.parts[p]? = some part → partRequired g file part = true → ⟨i, p⟩ ∈ s.partsLive
  /-- A live part makes live its file. -/
  file : ∀ d ∈ s.partsLive, d ∉ seeded → d.sourceIndex ∈ s.filesLive
  /-- A live part makes live every part it depends on. -/
  dependencies : ∀ d ∈ s.partsLive, d ∉ seeded → ∀ part, g.part? d = some part →
    ∀ d' ∈ part.dependencies, d' ∈ s.partsLive

/-- The liveness before the first entry point is walked. -/
def start (seeded : Finset Dependency) : Liveness := ⟨∅, seeded⟩

def entryNodes (entryPoints : List Nat) : Set Node := ⋃ i ∈ entryPoints, {Node.file i}

/-- The rules, as closure under `behind`. -/
theorem rules_iff (entryPoints : List Nat) (seeded : Finset Dependency) (s : Liveness) :
    Rules g entryPoints seeded s ↔
      s.nodes ∈ Closed (behind g) (entryNodes entryPoints) (start seeded).nodes := by
  constructor
  · intro h
    refine ⟨?_, ?_, ?_⟩
    · exact Liveness.nodes_subset.mpr ⟨by simp [start], h.seeds⟩
    · intro n hn
      obtain ⟨i, hi, rfl⟩ : ∃ i ∈ entryPoints, n = .file i := by simpa [entryNodes] using hn
      exact h.entries i hi
    · rintro (i | d) hx hfresh n hn
      · obtain ⟨file, hfile, hn⟩ := hn
        split at hn
        · next hf =>
          obtain ⟨r, hr, j, hj, rfl⟩ := hn
          exact h.records i hx file hfile hf r hr j hj
        · next hf =>
          have hf : file.followsRecords = false := by simpa using hf
          obtain ⟨p, part, hpart, hn⟩ := hn
          rcases hn with ⟨r, hr, j, hj, rfl⟩ | ⟨hreq, rfl⟩
          · exact h.imports i hx file hfile hf part (List.mem_of_getElem? hpart) r hr j hj
          · exact h.parts i hx file hfile hf p part hpart hreq
      · rcases hn with rfl | ⟨part, hpart, d', hd', rfl⟩
        · exact h.file d hx hfresh
        · exact h.dependencies d hx hfresh part hpart d' hd'
  · rintro ⟨hstart, hentries, hclosed⟩
    have hfile : ∀ i ∈ s.filesLive, behind g (.file i) ⊆ s.nodes := fun i hi =>
      hclosed (.file i) hi (by simp [start])
    have hpart : ∀ d ∈ s.partsLive, d ∉ seeded → behind g (.part d) ⊆ s.nodes := fun d hd hn =>
      hclosed (.part d) hd hn
    refine ⟨?_, ?_, ?_, ?_, ?_, ?_, ?_⟩
    · intro i hi
      exact hentries (a := .file i) (by simp [entryNodes, hi])
    · exact (Liveness.nodes_subset.mp hstart).2
    · intro i hi file hf hr r hmem j hj
      exact hfile i hi (a := .file j) ⟨file, hf, by rw [if_pos hr]; exact ⟨r, hmem, j, hj, rfl⟩⟩
    · intro i hi file hf hr part hmem r hk j hj
      obtain ⟨p, hp⟩ := List.mem_iff_getElem?.mp hmem
      exact hfile i hi (a := .file j) ⟨file, hf, by
        rw [if_neg (by simp [hr])]
        exact ⟨p, part, hp, .inl ⟨r, hk, j, hj, rfl⟩⟩⟩
    · intro i hi file hf hr p part hp hreq
      exact hfile i hi (a := .part ⟨i, p⟩) ⟨file, hf, by
        rw [if_neg (by simp [hr])]
        exact ⟨p, part, hp, .inr ⟨hreq, rfl⟩⟩⟩
    · intro d hd hn
      exact hpart d hd hn (a := .file d.sourceIndex) (.inl rfl)
    · intro d hd hn part hp d' hd'
      exact hpart d hd hn (a := .part d') (.inr ⟨part, hp, d', hd', rfl⟩)

/-! ### What each function marks -/

section Specs
variable {g}
variable {markFile : Nat → Liveness → Option Liveness}
variable {markPart : Dependency → Liveness → Option Liveness}

/-- The files a kept import names. -/
def importTargets (g : Graph) (record : ImportRecord) : Set Node :=
  {n | importKept g record = true ∧ ∃ j, record.sourceIndex = some j ∧ n = .file j}

theorem scanImport_spec
    (hfile : ∀ i s s', markFile i s = some s' → Marked (behind g) {.file i} s.nodes s'.nodes)
    (record : ImportRecord) (scan scan' : ImportScan)
    (h : scanImport g markFile scan record = some scan') :
    Marked (behind g) (importTargets g record) scan.live.nodes scan'.live.nodes ∧
      scan'.canBeRemovedIfUnused = (scan.canBeRemovedIfUnused && !importKept g record) := by
  have hnone : importKept g record = false ∨ record.sourceIndex = none →
      importTargets g record = ∅ := by
    rintro (hnot | hnot) <;> simp [importTargets, hnot]
  unfold scanImport at h
  split at h
  · next hkind =>
    have hk : importKept g record = false := by
      simp only [importKept, show (record.kind == .stmt) = false by simpa using hkind, Bool.false_and]
    obtain rfl := Option.some.inj h
    exact ⟨(Marked.nothing _).congr (hnone (.inl hk)).symm, by simp [hk]⟩
  · next hkind =>
    have hkind : (record.kind == .stmt) = true := by simpa using hkind
    split at h
    · next other hother =>
      split at h
      · next hside =>
        have hk : importKept g record = false := by
          simpa [importKept, hkind, hother] using hside
        obtain rfl := Option.some.inj h
        exact ⟨(Marked.nothing _).congr (hnone (.inl hk)).symm, by simp [hk]⟩
      · next hside =>
        have hk : importKept g record = true := by
          simp only [importKept, hkind, hother, Bool.true_and]
          by_cases he : g.sideEffects other = .hasSideEffects
          · simp [he]
          · simpa [he] using hside
        obtain ⟨s', hs', rfl⟩ := Option.map_eq_some_iff.mp h
        refine ⟨(hfile other scan.live s' hs').congr ?_, by simp [hk]⟩
        ext n
        simp [importTargets, hk, hother]
    · next hother =>
      split at h
      · next hext =>
        have hk : importKept g record = false := by simp [importKept, hother, hext]
        obtain rfl := Option.some.inj h
        exact ⟨(Marked.nothing _).congr (hnone (.inl hk)).symm, by simp [hk]⟩
      · next hext =>
        have hk : importKept g record = true := by simp [importKept, hkind, hother, hext]
        obtain rfl := Option.some.inj h
        exact ⟨(Marked.nothing _).congr (hnone (.inr hother)).symm, by simp [hk]⟩

/-- The loop over a part's imports: every kept import's file is marked, and the
part can be removed exactly if it could before and no import was kept. -/
theorem scanImports_spec
    (hfile : ∀ i s s', markFile i s = some s' → Marked (behind g) {.file i} s.nodes s'.nodes)
    (file : File) (part : Part) (s : Liveness) (scan : ImportScan)
    (h : scanImports g markFile file part s = some scan) :
    Marked (behind g) (targets (keptImports g file part)) s.nodes scan.live.nodes ∧
      scan.canBeRemovedIfUnused = ((part.canBeRemovedIfUnused &&
        !(part.tag == .commonjsNamedExport && file.wrap == .cjs)) &&
        (keptImports g file part).isEmpty) := by
  unfold scanImports at h
  unfold keptImports
  generalize part.importRecordIndices = indices at h ⊢
  generalize hflag : (part.canBeRemovedIfUnused &&
    !(part.tag == .commonjsNamedExport && file.wrap == .cjs)) = flag at h ⊢
  clear hflag
  induction indices generalizing s flag with
  | nil =>
    obtain rfl : (⟨s, flag⟩ : ImportScan) = scan := by simpa using h
    exact ⟨(Marked.nothing _).congr (by simp [targets]), by simp⟩
  | cons index rest ih =>
    rw [List.foldlM_cons] at h
    obtain ⟨mid, hstep, hrest⟩ := Option.bind_eq_some_iff.mp h
    obtain ⟨htail, hremoved⟩ := ih mid.live mid.canBeRemovedIfUnused hrest
    cases hrecord : file.importRecords[index]? with
    | none =>
      rw [hrecord] at hstep
      obtain rfl := Option.some.inj hstep
      simpa [List.filterMap_cons, hrecord] using ⟨htail, hremoved⟩
    | some record =>
      rw [hrecord] at hstep
      obtain ⟨hhead, hflag⟩ := scanImport_spec hfile record _ _ hstep
      cases hk : importKept g record with
      | false =>
        have hempty : importTargets g record = ∅ := by simp [importTargets, hk]
        rw [hempty] at hhead
        refine ⟨(hhead.append htail).congr ?_, ?_⟩
        · simp [hrecord, hk]
        · simpa [List.filterMap_cons, hrecord, hk, hflag] using hremoved
      | true =>
        refine ⟨(hhead.append htail).congr ?_, ?_⟩
        · ext n
          simp [hrecord, hk, targets, importTargets]
        · simpa [List.filterMap_cons, hrecord, hk, hflag] using hremoved

theorem visitPart_spec
    (hfile : ∀ i s s', markFile i s = some s' → Marked (behind g) {.file i} s.nodes s'.nodes)
    (hpart : ∀ d s s', markPart d s = some s' → Marked (behind g) {.part d} s.nodes s'.nodes)
    (i : Nat) (file : File) (p : Nat) (s s' : Liveness)
    (h : visitPart g markFile markPart i file s p = some s') :
    Marked (behind g) (behindPart g i file p) s.nodes s'.nodes := by
  unfold visitPart at h
  split at h
  · next hnone =>
    obtain rfl := Option.some.inj h
    exact (Marked.nothing _).congr (by ext n; simp [behindPart, hnone])
  · next part hsome =>
    obtain ⟨scan, hscan, hrest⟩ := Option.bind_eq_some_iff.mp h
    obtain ⟨himports, hflag⟩ := scanImports_spec hfile file part s scan hscan
    have hreq : partRequired g file part = (!scan.canBeRemovedIfUnused ||
        (!part.forceTreeShaking && !g.options.treeShaking && file.entryPointKind.isEntryPoint)) := by
      rw [partRequired, hflag]
      simp
    rw [← hreq] at hrest
    split at hrest
    · next hr =>
      refine (himports.append (hpart _ _ _ hrest)).congr ?_
      ext n
      simp [behindPart, hsome, hr, or_comm]
    · next hr =>
      obtain rfl := Option.some.inj hrest
      refine himports.congr ?_
      ext n
      simp [behindPart, hsome, hr]

/-- A file just marked: everything behind it is marked. -/
theorem visitFile_spec
    (hfile : ∀ i s s', markFile i s = some s' → Marked (behind g) {.file i} s.nodes s'.nodes)
    (hpart : ∀ d s s', markPart d s = some s' → Marked (behind g) {.part d} s.nodes s'.nodes)
    (i : Nat) (file : File) (hi : g.files[i]? = some file) (s s' : Liveness)
    (h : visitFile g markFile markPart i file s = some s') :
    Marked (behind g) (behind g (.file i)) s.nodes s'.nodes := by
  unfold visitFile at h
  split at h
  · next hf =>
    refine (Marked.foldlM Liveness.nodes _
      (fun r => {n | ∃ j, r.sourceIndex = some j ∧ n = .file j}) _ ?_ s s' h).congr ?_
    · intro r _ s s' hr
      split at hr
      · next j hj => exact (hfile j s s' hr).congr (by ext n; simp [hj])
      · next hj =>
        obtain rfl := Option.some.inj hr
        exact (Marked.nothing _).congr (by simp [hj])
    · ext n
      simp [behind, hi, hf, targets]
  · next hf =>
    refine (Marked.foldlM Liveness.nodes _ (behindPart g i file) _
      (fun p _ s s' hp => visitPart_spec hfile hpart i file p s s' hp) s s' h).congr ?_
    ext n
    simp only [behind, hi, Set.mem_iUnion, List.mem_range, Set.mem_ofPred_eq, Option.some.injEq]
    constructor
    · rintro ⟨p, _, hn⟩
      exact ⟨file, rfl, by simpa [hf] using ⟨p, hn⟩⟩
    · rintro ⟨_, rfl, hn⟩
      obtain ⟨p, hn⟩ : ∃ p, n ∈ behindPart g i file p := by simpa [hf] using hn
      obtain ⟨part, hp, hn'⟩ := id hn
      exact ⟨p, (List.getElem?_eq_some_iff.mp hp).1, hn⟩

end Specs

/-- Both walks, by induction on the fuel: a call marks its node and what is behind it. -/
theorem mark_spec (fuel : Nat) :
    (∀ i s s', markFileLive g fuel i s = some s' → Marked (behind g) {.file i} s.nodes s'.nodes) ∧
    (∀ d s s', markPartLive g fuel d s = some s' →
      Marked (behind g) {.part d} s.nodes s'.nodes) := by
  induction fuel with
  | zero => exact ⟨fun i s s' h => by simp [markFileLive] at h, fun d s s' h => by simp [markPartLive] at h⟩
  | succ fuel ih =>
    obtain ⟨ihfile, ihpart⟩ := ih
    constructor
    · intro i s s' h
      rw [markFileLive] at h
      split at h
      · next hlive =>
        obtain rfl := Option.some.inj h
        exact Marked.already hlive
      · next hfresh =>
        have hinsert : ({s with filesLive := insert i s.filesLive} : Liveness).nodes =
            insert (.file i) s.nodes := by
          ext (j | d) <;> simp
        refine Marked.explore hfresh ?_
        rw [← hinsert]
        split at h
        · next hnone =>
          obtain rfl := Option.some.inj h
          exact (Marked.nothing _).congr (by ext n; simp [behind, hnone])
        · next file hfile => exact visitFile_spec ihfile ihpart i file hfile _ _ h
    · intro d s s' h
      rw [markPartLive] at h
      split at h
      · next hlive =>
        obtain rfl := Option.some.inj h
        exact Marked.already hlive
      · next hfresh =>
        have hinsert : ({s with partsLive := insert d s.partsLive} : Liveness).nodes =
            insert (.part d) s.nodes := by
          ext (j | d') <;> simp
        refine Marked.explore hfresh ?_
        rw [← hinsert]
        obtain ⟨mid, hmid, hrest⟩ := Option.bind_eq_some_iff.mp h
        have hhead := ihfile _ _ _ hmid
        split at hrest
        · next hnone =>
          obtain rfl := Option.some.inj hrest
          exact hhead.congr (by ext n; simp [behind, hnone])
        · next part hpart =>
          have htail := Marked.foldlM Liveness.nodes (fun s d => markPartLive g fuel d s)
            (fun d' => {.part d'}) part.dependencies (fun d' _ => ihpart d') _ _ hrest
          refine (hhead.append htail).congr ?_
          ext n
          simp [behind, hpart]

theorem markEntryPoints_spec (fuel : Nat) (entryPoints : List Nat) (s s' : Liveness)
    (h : markEntryPoints g fuel entryPoints s = some s') :
    Marked (behind g) (entryNodes entryPoints) s.nodes s'.nodes :=
  Marked.foldlM Liveness.nodes _ _ entryPoints (fun i _ => (mark_spec g fuel).1 i) s s' h

/-! ### Termination -/

/-- Every node a run can reach. -/
def allNodes (entryPoints : List Nat) : Finset Node :=
  (Finset.range g.files.length ∪ entryPoints.toFinset).image .file ∪
    (Finset.range g.files.length).biUnion fun i =>
      (Finset.range ((g.files[i]?).elim 0 (·.parts.length))).image fun p => .part ⟨i, p⟩

variable {g}

theorem file_mem_allNodes {entryPoints : List Nat} {i : Nat} :
    Node.file i ∈ allNodes g entryPoints ↔ i < g.files.length ∨ i ∈ entryPoints := by
  simp [allNodes]

theorem part_mem_allNodes {entryPoints : List Nat} {d : Dependency} :
    Node.part d ∈ allNodes g entryPoints ↔
      ∃ file, g.files[d.sourceIndex]? = some file ∧ d.partIndex < file.parts.length := by
  obtain ⟨i, p⟩ := d
  simp only [allNodes, Finset.mem_union, Finset.mem_image, Finset.mem_biUnion, Finset.mem_range]
  constructor
  · rintro (⟨_, _, h⟩ | ⟨i', _, p', hp', h⟩)
    · cases h
    · cases h
      cases hfile : g.files[i]? with
      | none => simp [hfile] at hp'
      | some file => exact ⟨file, rfl, by simpa [hfile] using hp'⟩
  · rintro ⟨file, hfile, hp⟩
    have hi : i < g.files.length := (List.getElem?_eq_some_iff.mp hfile).1
    exact .inr ⟨i, hi, p, by simpa [hfile] using hp, rfl⟩

theorem part?_eq_some {d : Dependency} {part : Part} (h : g.part? d = some part) :
    ∃ file ∈ g.files, part ∈ file.parts := by
  obtain ⟨file, hfile, hpart⟩ := Option.bind_eq_some_iff.mp h
  exact ⟨file, List.mem_of_getElem? hfile, List.mem_of_getElem? hpart⟩

/-- No rule leads out of the graph: its indices are in range. -/
theorem behind_allNodes (entryPoints : List Nat) (n : Node) (hn : n ∈ allNodes g entryPoints) :
    ∀ m ∈ behind g n, m ∈ allNodes g entryPoints := by
  intro m hm
  have htargets : ∀ file ∈ g.files, ∀ records, (∀ r ∈ records, r ∈ file.importRecords) →
      m ∈ targets records → m ∈ allNodes g entryPoints := by
    rintro file hfile records hsub ⟨r, hr, j, hj, rfl⟩
    exact file_mem_allNodes.mpr (.inl (g.records_valid file hfile r (hsub r hr) j hj))
  cases n with
  | file i =>
    obtain ⟨file, hfile, hm⟩ := hm
    have hmem := List.mem_of_getElem? hfile
    split at hm
    · exact htargets file hmem _ (fun r hr => hr) hm
    · obtain ⟨p, part, hpart, hm | ⟨_, rfl⟩⟩ := hm
      · refine htargets file hmem _ (fun r hr => ?_) hm
        obtain ⟨k, _, hk⟩ := List.mem_filterMap.mp (List.mem_filter.mp hr).1
        exact List.mem_of_getElem? hk
      · exact part_mem_allNodes.mpr ⟨file, hfile, (List.getElem?_eq_some_iff.mp hpart).1⟩
  | part d =>
    rcases hm with rfl | ⟨part, hpart, d', hd', rfl⟩
    · obtain ⟨file, hfile, _⟩ := part_mem_allNodes.mp hn
      exact file_mem_allNodes.mpr (.inl (List.getElem?_eq_some_iff.mp hfile).1)
    · obtain ⟨file, hfile, hmem⟩ := part?_eq_some hpart
      exact part_mem_allNodes.mpr (g.dependencies_valid file hfile part hmem d' hd')

section Termination
variable (entryPoints : List Nat)

/-- The nodes not marked yet. -/
noncomputable def work (s : Liveness) : Nat := remaining (allNodes g entryPoints) s.nodes

/-- A call finishes from every state with at most `bound` nodes to mark, and adds none. -/
def Finishes (bound : Nat) (f : Liveness → Option Liveness) : Prop :=
  ∀ s, work (g := g) entryPoints s ≤ bound →
    ∃ s', f s = some s' ∧ work (g := g) entryPoints s' ≤ work (g := g) entryPoints s

variable {entryPoints} {bound : Nat}
variable {markFile : Nat → Liveness → Option Liveness}
variable {markPart : Dependency → Liveness → Option Liveness}

theorem scanImports_finishes
    (hfile : ∀ i, .file i ∈ allNodes g entryPoints → Finishes (g := g) entryPoints bound (markFile i))
    (file : File) (hmem : file ∈ g.files) (part : Part) (s : Liveness)
    (hs : work (g := g) entryPoints s ≤ bound) :
    ∃ scan, scanImports g markFile file part s = some scan ∧
      work (g := g) entryPoints scan.live ≤ work (g := g) entryPoints s := by
  refine foldlM_isSome (fun scan : ImportScan => work (g := g) entryPoints scan.live) _ _ bound ?_ _ hs
  intro index _ scan hscan
  cases hrecord : file.importRecords[index]? with
  | none => exact ⟨scan, rfl, le_rfl⟩
  | some record =>
    simp only [scanImport]
    split
    · exact ⟨scan, rfl, le_rfl⟩
    · split
      · next other hother =>
        split
        · exact ⟨scan, rfl, le_rfl⟩
        · have hvalid := g.records_valid file hmem record (List.mem_of_getElem? hrecord) other hother
          obtain ⟨s', hs', hle⟩ := hfile other (file_mem_allNodes.mpr (.inl hvalid)) scan.live hscan
          exact ⟨⟨s', false⟩, by rw [hs']; rfl, hle⟩
      · split
        · exact ⟨scan, rfl, le_rfl⟩
        · exact ⟨_, rfl, le_rfl⟩

theorem visitPart_finishes
    (hfile : ∀ i, .file i ∈ allNodes g entryPoints → Finishes (g := g) entryPoints bound (markFile i))
    (hpart : ∀ d, .part d ∈ allNodes g entryPoints → Finishes (g := g) entryPoints bound (markPart d))
    (i : Nat) (file : File) (hi : g.files[i]? = some file) (p : Nat) :
    Finishes (g := g) entryPoints bound (visitPart g markFile markPart i file · p) := by
  intro s hs
  simp only [visitPart]
  split
  · exact ⟨s, rfl, le_rfl⟩
  · next part hp =>
    obtain ⟨scan, hscan, hle⟩ :=
      scanImports_finishes hfile file (List.mem_of_getElem? hi) part s hs
    rw [hscan, Option.bind_some]
    split
    · have hnode : Node.part ⟨i, p⟩ ∈ allNodes g entryPoints :=
        part_mem_allNodes.mpr ⟨file, hi, (List.getElem?_eq_some_iff.mp hp).1⟩
      obtain ⟨s', hs', hle'⟩ := hpart ⟨i, p⟩ hnode scan.live (hle.trans hs)
      exact ⟨s', hs', hle'.trans hle⟩
    · exact ⟨scan.live, rfl, hle⟩

theorem visitFile_finishes
    (hfile : ∀ i, .file i ∈ allNodes g entryPoints → Finishes (g := g) entryPoints bound (markFile i))
    (hpart : ∀ d, .part d ∈ allNodes g entryPoints → Finishes (g := g) entryPoints bound (markPart d))
    (i : Nat) (file : File) (hi : g.files[i]? = some file) :
    Finishes (g := g) entryPoints bound (visitFile g markFile markPart i file) := by
  intro s hs
  unfold visitFile
  split
  · refine foldlM_isSome (work (g := g) entryPoints) _ _ bound ?_ s hs
    intro record hrecord s hs
    split
    · next other hother =>
      have hvalid := g.records_valid file (List.mem_of_getElem? hi) record hrecord other hother
      exact hfile other (file_mem_allNodes.mpr (.inl hvalid)) s hs
    · exact ⟨s, rfl, le_rfl⟩
  · exact foldlM_isSome (work (g := g) entryPoints) _ _ bound
      (fun p _ s hs => visitPart_finishes hfile hpart i file hi p s hs) s hs

/-- Both walks finish with more fuel than nodes left to mark. -/
theorem mark_finishes (fuel : Nat) :
    (∀ i, .file i ∈ allNodes g entryPoints →
      Finishes (g := g) entryPoints fuel (markFileLive g (fuel + 1) i)) ∧
    (∀ d, .part d ∈ allNodes g entryPoints →
      Finishes (g := g) entryPoints fuel (markPartLive g (fuel + 1) d)) := by
  induction fuel with
  | zero =>
    constructor
    · intro i hi s hs
      by_cases hlive : i ∈ s.filesLive
      · exact ⟨s, by simp [markFileLive, hlive], le_rfl⟩
      · have hmem : Node.file i ∉ s.nodes := hlive
        have := remaining_insert (allNodes g entryPoints) hi hmem
        unfold work at hs
        omega
    · intro d hd s hs
      by_cases hlive : d ∈ s.partsLive
      · exact ⟨s, by simp [markPartLive, hlive], le_rfl⟩
      · have hmem : Node.part d ∉ s.nodes := hlive
        have := remaining_insert (allNodes g entryPoints) hd hmem
        unfold work at hs
        omega
  | succ fuel ih =>
    obtain ⟨ihfile, ihpart⟩ := ih
    constructor
    · intro i hi s hs
      by_cases hlive : i ∈ s.filesLive
      · exact ⟨s, by rw [markFileLive, if_pos hlive], le_rfl⟩
      · have hless : work (g := g) entryPoints {s with filesLive := insert i s.filesLive} <
            work (g := g) entryPoints s := by
          have hinsert : ({s with filesLive := insert i s.filesLive} : Liveness).nodes =
              insert (.file i) s.nodes := by
            ext (j | d) <;> simp
          unfold work
          rw [hinsert]
          exact remaining_insert (allNodes g entryPoints) hi hlive
        rw [markFileLive, if_neg hlive]
        cases hfile : g.files[i]? with
        | none => exact ⟨_, rfl, hless.le⟩
        | some file =>
          obtain ⟨s', hs', hle⟩ := visitFile_finishes ihfile ihpart i file hfile
            {s with filesLive := insert i s.filesLive} (by omega)
          exact ⟨s', hs', hle.trans hless.le⟩
    · intro d hd s hs
      by_cases hlive : d ∈ s.partsLive
      · exact ⟨s, by rw [markPartLive, if_pos hlive], le_rfl⟩
      · have hless : work (g := g) entryPoints {s with partsLive := insert d s.partsLive} <
            work (g := g) entryPoints s := by
          have hinsert : ({s with partsLive := insert d s.partsLive} : Liveness).nodes =
              insert (.part d) s.nodes := by
            ext (j | d') <;> simp
          unfold work
          rw [hinsert]
          exact remaining_insert (allNodes g entryPoints) hd hlive
        obtain ⟨file, hfile, _⟩ := part_mem_allNodes.mp hd
        have hnode : Node.file d.sourceIndex ∈ allNodes g entryPoints :=
          file_mem_allNodes.mpr (.inl (List.getElem?_eq_some_iff.mp hfile).1)
        obtain ⟨mid, hmid, hle⟩ := ihfile d.sourceIndex hnode
          {s with partsLive := insert d s.partsLive} (by omega)
        simp only [markPartLive, if_neg hlive, hmid, Option.bind_some]
        cases hpart : g.part? d with
        | none => exact ⟨mid, rfl, hle.trans hless.le⟩
        | some part =>
          obtain ⟨s', hs', hle'⟩ := foldlM_isSome (work (g := g) entryPoints)
            (fun s d => markPartLive g (fuel + 1) d s) part.dependencies fuel
            (fun d' hd' s hs => ihpart d' (behind_allNodes entryPoints (.part d) hd _
              (.inr ⟨part, hpart, d', hd', rfl⟩)) s hs) mid (by omega)
          exact ⟨s', hs', hle'.trans (hle.trans hless.le)⟩

theorem markEntryPoints_finishes (fuel : Nat) (entryPoints : List Nat) (s : Liveness)
    (hfuel : (allNodes g entryPoints).card < fuel) :
    ∃ s', markEntryPoints g fuel entryPoints s = some s' := by
  obtain ⟨bound, rfl⟩ : ∃ bound, fuel = bound + 1 := ⟨fuel - 1, by omega⟩
  obtain ⟨s', hs', _⟩ := foldlM_isSome (work (g := g) entryPoints)
    (fun s i => markFileLive g (bound + 1) i s) entryPoints bound
    (fun i hi => (mark_finishes bound).1 i (file_mem_allNodes.mpr (.inr hi))) s
    ((remaining_le_card _ _).trans (by omega))
  exact ⟨s', hs'⟩

end Termination

/-! ### The order of parts -/

/-- `e i` renumbers the parts of file `i`. -/
def Dependency.rename (e : Nat → Equiv.Perm Nat) (d : Dependency) : Dependency :=
  ⟨d.sourceIndex, e d.sourceIndex d.partIndex⟩

def Part.rename (e : Nat → Equiv.Perm Nat) (part : Part) : Part :=
  {part with dependencies := part.dependencies.map (·.rename e)}

/-- A file without its parts. -/
def File.bare (file : File) : File := {file with parts := []}

/-- The same graph with the parts of every file in another order. -/
structure Renumbered (g g' : Graph) (e : Nat → Equiv.Perm Nat) : Prop where
  options : g'.options = g.options
  files : ∀ i : Nat, (g'.files[i]?).map File.bare = (g.files[i]?).map File.bare
  parts : ∀ d, g'.part? (d.rename e) = (g.part? d).map (·.rename e)

theorem Part.rename_symm (e : Nat → Equiv.Perm Nat) (part : Part) :
    (part.rename e).rename (fun i => (e i).symm) = part := by
  simp [Part.rename, Dependency.rename, Function.comp_def]

variable {g g' : Graph} {e : Nat → Equiv.Perm Nat}

theorem Renumbered.symm (h : Renumbered g g' e) :
    Renumbered g' g (fun i => (e i).symm) where
  options := h.options.symm
  files i := (h.files i).symm
  parts d := by
    have := h.parts (d.rename fun i => (e i).symm)
    rw [show (d.rename fun i => (e i).symm).rename e = d by simp [Dependency.rename]] at this
    rw [this]
    cases g.part? (d.rename fun i => (e i).symm) <;> simp [Part.rename_symm]

/-- The file of the renumbered graph, and where its parts went. -/
theorem Renumbered.file (h : Renumbered g g' e) {i : Nat} {file : File} (hi : g.files[i]? = some file) :
    ∃ file', g'.files[i]? = some file' ∧ file'.bare = file.bare ∧
      ∀ p, file'.parts[e i p]? = (file.parts[p]?).map (·.rename e) := by
  have hbare := h.files i
  rw [hi, Option.map_some] at hbare
  obtain ⟨file', hi', hbare⟩ := Option.map_eq_some_iff.mp hbare
  refine ⟨file', hi', hbare, fun p => ?_⟩
  simpa [Graph.part?, Dependency.rename, hi, hi'] using h.parts ⟨i, p⟩

theorem Renumbered.importKept (h : Renumbered g g' e) :
    importKept g' = importKept g := by
  have hside : ∀ j, g'.sideEffects j = g.sideEffects j := by
    intro j
    have hj := h.files j
    unfold Graph.sideEffects
    cases hg : g.files[j]? <;> cases hg' : g'.files[j]? <;> simp [hg, hg', File.bare] at hj ⊢
    exact hj.2.2.2.1
  funext record
  simp [TreeShaking.importKept, hside, h.options]

def renameEquiv (e : Nat → Equiv.Perm Nat) : Node ≃ Node where
  toFun
    | .file i => .file i
    | .part d => .part (d.rename e)
  invFun
    | .file i => .file i
    | .part d => .part (d.rename fun i => (e i).symm)
  left_inv n := by cases n <;> simp [Dependency.rename]
  right_inv n := by cases n <;> simp [Dependency.rename]

theorem renameEquiv_symm (e : Nat → Equiv.Perm Nat) :
    (renameEquiv e).symm = renameEquiv fun i => (e i).symm := by
  ext (i | d) <;> rfl

/-- What is behind a node is renumbered along with it. -/
theorem Renumbered.behind_subset (h : Renumbered g g' e)
    (n : Node) : ∀ m ∈ behind g n, renameEquiv e m ∈ behind g' (renameEquiv e n) := by
  intro m hm
  cases n with
  | file i =>
    obtain ⟨file, hi, hm⟩ := hm
    obtain ⟨file', hi', hbare, hparts⟩ := h.file hi
    have hrecords : file'.importRecords = file.importRecords := (congrArg File.importRecords hbare :)
    have hfollows : file'.followsRecords = file.followsRecords := (congrArg File.followsRecords hbare :)
    have hkept : ∀ part : Part, keptImports g' file' (part.rename e) = keptImports g file part :=
      fun part => by rw [keptImports, hrecords, h.importKept]; rfl
    have hrequired : ∀ part : Part, partRequired g' file' (part.rename e) = partRequired g file part := by
      intro part
      have hwrap : file'.wrap = file.wrap := (congrArg File.wrap hbare :)
      have hkind : file'.entryPointKind = file.entryPointKind := (congrArg File.entryPointKind hbare :)
      rw [partRequired, hkept, hwrap, hkind, h.options]
      rfl
    have hfixed : ∀ records, m ∈ targets records → renameEquiv e m ∈ targets records := by
      rintro records ⟨r, hr, j, hj, rfl⟩
      exact ⟨r, hr, j, hj, rfl⟩
    refine ⟨file', hi', ?_⟩
    rw [hfollows, hrecords]
    split at hm
    · next hf =>
      rw [if_pos hf]
      exact hfixed _ hm
    · next hf =>
      rw [if_neg hf]
      obtain ⟨p, part, hpart, hm⟩ := hm
      refine ⟨e i p, part.rename e, by rw [hparts, hpart]; rfl, ?_⟩
      rw [hkept, hrequired]
      rcases hm with hm | ⟨hreq, rfl⟩
      · exact .inl (hfixed _ hm)
      · exact .inr ⟨hreq, rfl⟩
  | part d =>
    rcases hm with rfl | ⟨part, hpart, d', hd', rfl⟩
    · exact .inl rfl
    · refine .inr ⟨part.rename e, ?_, d'.rename e, List.mem_map_of_mem hd', rfl⟩
      rw [h.parts, hpart]
      rfl

theorem Renumbered.behind_eq (h : Renumbered g g' e)
    (n : Node) : behind g' (renameEquiv e n) = renameEquiv e '' behind g n := by
  ext m
  constructor
  · intro hm
    have := h.symm.behind_subset _ m hm
    rw [← renameEquiv_symm, Equiv.symm_apply_apply] at this
    exact ⟨_, this, Equiv.apply_symm_apply _ m⟩
  · rintro ⟨m, hm, rfl⟩
    exact h.behind_subset n m hm

theorem rename_nodes (e : Nat → Equiv.Perm Nat) (s : Liveness) :
    renameEquiv e '' s.nodes =
      (⟨s.filesLive, s.partsLive.image (·.rename e)⟩ : Liveness).nodes := by
  ext n
  constructor
  · rintro ⟨i | d, hn, rfl⟩
    · exact hn
    · exact Finset.mem_image_of_mem _ hn
  · intro hn
    cases n with
    | file i => exact ⟨.file i, hn, rfl⟩
    | part d =>
      obtain ⟨d', hd', rfl⟩ := Finset.mem_image.mp hn
      exact ⟨.part d', hd', rfl⟩

theorem rename_entryNodes (e : Nat → Equiv.Perm Nat) (entryPoints : List Nat) :
    renameEquiv e '' entryNodes entryPoints = entryNodes entryPoints := by
  simp only [entryNodes, Set.image_iUnion₂, Set.image_singleton]
  rfl

/-! ### The outcome -/

/-- **Tree shaking computes the least liveness the rules allow.** On every graph,
with parts `seeded` live beforehand, the walks over the entry points finish, and
what they leave live satisfies the rules and lies in every liveness that does. It
depends on the entry points as a set only, and renumbering the parts of the files
renumbers it. -/
theorem markEntryPoints_least (entryPoints : List Nat) (seeded : Finset Dependency) :
    ∃ s, (∀ fuel, (allNodes g entryPoints).card < fuel →
        markEntryPoints g fuel entryPoints (start seeded) = some s) ∧
      Rules g entryPoints seeded s ∧ (∀ t, Rules g entryPoints seeded t → s ≤ t) ∧
      (∀ entryPoints', (∀ i, i ∈ entryPoints' ↔ i ∈ entryPoints) →
        ∀ fuel, (allNodes g entryPoints').card < fuel →
          markEntryPoints g fuel entryPoints' (start seeded) = some s) ∧
      (∀ g' e, Renumbered g g' e → ∀ fuel, (allNodes g' entryPoints).card < fuel →
        markEntryPoints g' fuel entryPoints (start (seeded.image (·.rename e))) =
          some ⟨s.filesLive, s.partsLive.image (·.rename e)⟩) := by
  obtain ⟨s, hs⟩ := markEntryPoints_finishes (g := g) ((allNodes g entryPoints).card + 1) entryPoints
    (start seeded) (Nat.lt_succ_self _)
  have hmarked := markEntryPoints_spec g _ entryPoints _ s hs
  -- every finished run from the same entry points ends in the same liveness
  have hsame : ∀ entryPoints', (∀ i, i ∈ entryPoints' ↔ i ∈ entryPoints) →
      ∀ fuel, (allNodes g entryPoints').card < fuel →
        markEntryPoints g fuel entryPoints' (start seeded) = some s := by
    intro entryPoints' hentries fuel hfuel
    obtain ⟨s', hs'⟩ := markEntryPoints_finishes (g := g) fuel entryPoints' (start seeded) hfuel
    have hmarked' := (markEntryPoints_spec g _ entryPoints' _ s' hs').congr
      (show entryNodes entryPoints' = entryNodes entryPoints by simp [entryNodes, hentries])
    rw [hs', Liveness.nodes_injective (hmarked'.unique hmarked)]
  refine ⟨s, hsame entryPoints (fun i => Iff.rfl), ?_, ?_, hsame, ?_⟩
  · exact (rules_iff g entryPoints seeded s).mpr hmarked.isLeast.1
  · intro t ht
    exact Liveness.nodes_subset.mp (hmarked.isLeast.2 ((rules_iff g entryPoints seeded t).mp ht))
  · intro g' e h fuel hfuel
    obtain ⟨s', hs'⟩ := markEntryPoints_finishes (g := g') fuel entryPoints
      (start (seeded.image (·.rename e))) hfuel
    have hmarked' := markEntryPoints_spec g' _ entryPoints _ s' hs'
    have hrenamed := hmarked.map (renameEquiv e) h.behind_eq
    rw [rename_entryNodes, rename_nodes, rename_nodes] at hrenamed
    rw [hs', Liveness.nodes_injective (hmarked'.unique hrenamed)]

end Funbun.Bundler.TreeShaking
