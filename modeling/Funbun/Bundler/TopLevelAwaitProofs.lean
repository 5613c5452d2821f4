import Funbun.Bundler.TopLevelAwait

/-! What the walks for top-level await find.

What they find is right: a file with a parent leads to an await. The calls walk the files as a depth-first search does,
and what they miss they miss where a record leads back to an open file of which nothing is known so far. -/
namespace Funbun.Bundler.TopLevelAwait
open Library
open TreeShaking (ImportKind)

namespace State

def Met (s : State) (i : Nat) : Prop := (s.checks i).depth ≠ 0

def Found (s : State) (i : Nat) : Prop := (s.checks i).parent ≠ none

/-- An error was reported for a record. -/
def Reported (s : State) (source k : Nat) : Prop := ∃ e ∈ s.log, e.source = source ∧ e.importRecordIndex = k

end State

/-- Nothing of a file has changed. -/
structure Kept (s s' : State) (i : Nat) : Prop where
  check : s'.checks i = s.checks i
  flag : s'.isAsync i = s.isAsync i
  reported : ∀ k, s'.Reported i k ↔ s.Reported i k

namespace Kept
variable {s s₁ s₂ : State} {i : Nat}

theorem refl (s : State) (i : Nat) : Kept s s i := ⟨rfl, rfl, fun _ => .rfl⟩

theorem trans (h : Kept s s₁ i) (h' : Kept s₁ s₂ i) : Kept s s₂ i :=
  ⟨h'.check.trans h.check, h'.flag.trans h.flag, fun k => (h'.reported k).trans (h.reported k)⟩

theorem found (h : Kept s s₁ i) : s₁.Found i ↔ s.Found i := by
  unfold State.Found
  rw [h.check]

theorem met (h : Kept s s₁ i) : s₁.Met i ↔ s.Met i := by
  unfold State.Met
  rw [h.check]

end Kept

namespace Graph
variable (g : Graph)

/-- An error is for a `require` of a file that is asynchronous, and its notes end at an await. -/
def Justified (e : Report) : Prop :=
  (∃ other, g.Names .require e.source e.importRecordIndex other ∧ g.Async other) ∧
    ∃ j, g.HasAwait j ∧ e.notes.getLast? = some (g.awaitNote j)

/-- The parent of a file is one that it imports and that is nearer to an await. -/
def Parent (s : State) (i j : Nat) : Prop :=
  ∃ k, (s.checks i).importRecordIndex = some k ∧ g.Names .stmt i k j ∧ s.Found j ∧
    (s.checks j).depth < (s.checks i).depth

structure Sound (s : State) : Prop where
  unmet : ∀ i, s.Found i → s.Met i
  awaits : ∀ i, s.Met i → g.HasAwait i → s.Found i
  parents : ∀ i j, (s.checks i).parent = some j → g.HasAwait i ∨ g.Parent s i j
  flags : ∀ i, s.isAsync i = true → s.Found i
  reports : ∀ e ∈ s.log, g.Justified e
  logged : ∀ i k, s.Reported i k → s.Met i

variable {g} {s s' : State} {i j k : Nat}

theorem Names.imports (h : g.Names .stmt i k j) : g.Imports i j := by
  obtain ⟨record, hrecord, hkind, hsource⟩ := h
  exact ⟨record, List.mem_of_getElem? hrecord, hkind, hsource⟩

theorem Names.lt {kind : ImportKind} (h : g.Names kind i k j) : i < g.files.length ∧ k < (g.importRecords i).length ∧
    j < g.files.length := by
  obtain ⟨record, hrecord, -, hsource⟩ := h
  have hk := (List.getElem?_eq_some_iff.mp hrecord).1
  unfold importRecords at hrecord
  cases hfile : g.files[i]? with
  | none =>
    rw [hfile] at hrecord
    cases hrecord
  | some file =>
    rw [hfile] at hrecord
    have hmem := List.mem_of_getElem? hfile
    exact ⟨(List.getElem?_eq_some_iff.mp hfile).1, hk, g.records_valid file hmem record (List.mem_of_getElem? hrecord) j hsource⟩

theorem Async.of_imports (h : g.Imports i j) (hj : g.Async j) : g.Async i := by
  obtain ⟨t, hreach, hawait⟩ := hj
  exact ⟨t, .head h hreach, hawait⟩

theorem Async.lt (h : g.Async i) : i < g.files.length := by
  obtain ⟨t, hreach, hawait⟩ := h
  rcases hreach.cases_head with rfl | ⟨j, ⟨record, hrecord, -, hsource⟩, -⟩
  · by_contra hlt
    unfold HasAwait keyword at hawait
    rw [List.getElem?_eq_none (Nat.not_lt.mp hlt)] at hawait
    exact absurd hawait (by decide)
  · obtain ⟨k, hk⟩ := List.getElem?_of_mem hrecord
    have hnames : g.Names record.kind i k j := ⟨record, hk, rfl, hsource⟩
    exact hnames.lt.1

/-- What was found is there: the depth decreases from parent to parent. -/
theorem Sound.async (h : g.Sound s) (hi : s.Found i) : g.Async i := by
  generalize hdepth : (s.checks i).depth = depth
  induction depth using Nat.strongRecOn generalizing i with
  | ind depth ih =>
    obtain ⟨j, hj⟩ := Option.ne_none_iff_exists'.mp hi
    rcases h.parents i j hj with hawait | hparent
    · exact ⟨i, .refl, hawait⟩
    · obtain ⟨k, -, hnames, hfound, hlt⟩ := id hparent
      exact (ih _ (hdepth ▸ hlt) hfound rfl).of_imports hnames.imports

/-! ### The chain of notes -/

/-- The files that are nearer to an await. -/
def nearer (g : Graph) (s : State) (i : Nat) : Finset Nat :=
  (Finset.range g.files.length).filter fun j => (s.checks j).depth < (s.checks i).depth

theorem card_nearer_le (g : Graph) (s : State) (i : Nat) : (g.nearer s i).card ≤ g.files.length := by
  have hcard := Finset.card_filter_le (Finset.range g.files.length) fun j => (s.checks j).depth < (s.checks i).depth
  rwa [Finset.card_range] at hcard

theorem card_nearer_lt (h : g.Parent s i j) : (g.nearer s j).card < (g.nearer s i).card := by
  obtain ⟨k, -, hnames, -, hlt⟩ := h
  apply Finset.card_lt_card
  constructor
  · intro k hk
    rw [nearer, Finset.mem_filter] at hk ⊢
    exact ⟨hk.1, hk.2.trans hlt⟩
  · intro hsub
    have hmem : j ∈ g.nearer s i := Finset.mem_filter.mpr ⟨Finset.mem_range.mpr hnames.lt.2.2, hlt⟩
    exact Nat.lt_irrefl _ (Finset.mem_filter.mp (hsub hmem)).2

variable {limit source other : Nat} {path : List (Nat × Nat)}

/-- The chain ends at an await. -/
theorem chain_spec (h : g.Sound s) (hi : s.Found i) (hlimit : (g.nearer s i).card < limit) (notes : List Note) :
    ∃ notes' path, g.chain s limit i notes = some (notes', path) ∧
      ∃ j, g.HasAwait j ∧ notes'.getLast? = some (g.awaitNote j) := by
  induction limit generalizing i notes with
  | zero => exact absurd hlimit (Nat.not_lt_zero _)
  | succ limit ih =>
    rw [chain]
    split
    · rename_i hawait
      exact ⟨_, _, rfl, i, hawait, List.getLast?_concat⟩
    · rename_i hnot
      obtain ⟨j, hj⟩ := Option.ne_none_iff_exists'.mp hi
      have hparent : g.Parent s i j := (h.parents i j hj).resolve_left hnot
      obtain ⟨k, hindex, ⟨record, hrecord, -, -⟩, hfound, -⟩ := id hparent
      rw [hj]
      dsimp only
      rw [hindex, Option.bind_some, hrecord, Option.bind_some]
      exact ih hfound (by have := card_nearer_lt hparent; omega) _

/-! ### What the search says -/

variable {F forest forest' : Forest}

/-- Files are met as in the search. -/
def Agrees (forest : Forest) (s : State) : Prop := ∀ i, s.Met i ↔ forest i ≠ none

def Extends (forest' forest : Forest) : Prop := ∀ i origin, forest i = some origin → forest' i = some origin

theorem Extends.refl (forest : Forest) : Extends forest forest := fun _ _ => id

theorem Extends.trans {forest'' : Forest} (h : Extends forest' forest) (h' : Extends forest'' forest') :
    Extends forest'' forest := fun i origin hi => h' i origin (h i origin hi)

theorem extends_update (h : forest i = none) (origin : Option (Nat × Nat)) :
    Extends (Function.update forest i (some origin)) forest := by
  intro j origin' hj
  have hne : j ≠ i := by
    rintro rfl
    exact Option.some_ne_none _ (hj.symm.trans h)
  rwa [Function.update_of_ne hne]

/-- The open files, each with the record that is looked at, the last one first. Each was met at the record behind it. -/
def Chain (F : Forest) : List (Nat × Nat) → Prop
  | [] => True
  | (i, _) :: path => F i = some path.head? ∧ i ∉ path.map Prod.fst ∧ Chain F path

theorem open_iff (h : Chain F ((i, k) :: path)) {c : Nat} :
    Open F j c i k ↔ (j, c) ∈ (i, k) :: path := by
  constructor
  · intro hopen
    induction hopen generalizing path with
    | self => exact List.mem_cons_self
    | step hmet _ ih =>
      obtain ⟨horigin, -, hrest⟩ := h
      rw [hmet] at horigin
      cases path with
      | nil => cases horigin
      | cons frame path =>
        cases horigin
        exact List.mem_cons_of_mem _ (ih hrest)
  · intro hmem
    induction path generalizing i k with
    | nil =>
      cases List.mem_singleton.mp hmem
      exact .self
    | cons frame path ih =>
      rcases List.mem_cons.mp hmem with heq | hmem
      · cases heq
        exact .self
      · exact .step h.1 (ih h.2.2 hmem)

/-- A record that leads to an asynchronous file and is not cut -/
def Leads (g : Graph) (F : Forest) (kind : ImportKind) (i k : Nat) : Prop :=
  ∃ j, g.Names kind i k j ∧ g.Async j ∧ ¬g.Cut F i k

theorem names_unique {kind kind' : ImportKind} {j' : Nat} (h : g.Names kind i k j) (h' : g.Names kind' i k j') :
    kind = kind' ∧ j = j' := by
  obtain ⟨record, hrecord, hkind, hsource⟩ := h
  obtain ⟨record', hrecord', hkind', hsource'⟩ := h'
  cases hrecord.symm.trans hrecord'
  exact ⟨hkind.symm.trans hkind', Option.some.inj (hsource.symm.trans hsource')⟩

/-- What is known of a file of which the records before `k` were looked at -/
structure Frame (g : Graph) (F : Forest) (s : State) (i k : Nat) : Prop where
  found : s.Found i ↔ g.HasAwait i ∨ ∃ k' < k, g.Leads F .stmt i k'
  reported : ∀ k', s.Reported i k' ↔ k' < k ∧ g.Leads F .require i k'

/-- What is known of a file whose call has returned -/
structure Done (g : Graph) (F : Forest) (s : State) (i : Nat) : Prop where
  frame : Frame g F s i (g.importRecords i).length
  flag : s.isAsync i = true ↔ s.Found i
  found : s.Found i ↔ g.Async i

theorem Frame.of_kept (h : Frame g F s i k) (hkept : Kept s s' i) : Frame g F s' i k :=
  ⟨hkept.found.trans h.found, fun k' => (hkept.reported k').trans (h.reported k')⟩

theorem Done.of_kept (h : Done g F s i) (hkept : Kept s s' i) : Done g F s' i :=
  ⟨h.frame.of_kept hkept, hkept.flag ▸ h.flag.trans hkept.found.symm, hkept.found.trans h.found⟩

/-- One more record was looked at. -/
theorem Frame.next (h : Frame g F s i k) (hfound : s'.Found i ↔ s.Found i ∨ g.Leads F .stmt i k)
    (hreported : ∀ k', s'.Reported i k' ↔ s.Reported i k' ∨ k' = k ∧ g.Leads F .require i k) : Frame g F s' i (k + 1) where
  found := by
    rw [hfound, h.found, or_assoc, Nat.exists_lt_succ_right]
  reported k' := by
    rw [hreported, h.reported, Nat.lt_succ_iff_lt_or_eq, or_and_right]
    refine or_congr_right ?_
    constructor
    · rintro ⟨rfl, hleads⟩
      exact ⟨rfl, hleads⟩
    · rintro ⟨rfl, hleads⟩
      exact ⟨rfl, hleads⟩

/-- What is known of all files that were met -/
structure Known (g : Graph) (F : Forest) (path : List (Nat × Nat)) (s : State) : Prop where
  met : ∀ i ∈ path.map Prod.fst, s.Met i
  frames : ∀ frame ∈ path, Frame g F s frame.1 frame.2
  done : ∀ i, s.Met i → i ∉ path.map Prod.fst → Done g F s i

/-- No cut does harm, or none did harm to a file whose call has returned. -/
def Expects (g : Graph) (F : Forest) (files : List Nat) (s : State) : Prop :=
  g.Answered F ∨ ∀ i, s.Met i → i ∉ files → g.Async i → s.Found i

theorem Expects.of_kept {files : List Nat} (h : Expects g F files s')
    (hkept : ∀ i, s.Met i → i ∉ files → Kept s s' i) : Expects g F files s := by
  refine h.imp_right fun hright i hi hfiles hasync => ?_
  have hi' := hkept i hi hfiles
  exact hi'.found.mp (hright i (hi'.met.mpr hi) hfiles hasync)

theorem cut_iff : g.Cut F i k ↔ ∃ j c, (g.Names .stmt i k j ∨ g.Names .require i k j) ∧ Open F j c i k ∧ ¬g.HasAwait j ∧
    ¬∃ c' < c, g.Leads F .stmt j c' := by
  constructor
  · rintro ⟨hnames, hopen, hawait, hbefore⟩
    refine ⟨_, _, hnames, hopen, hawait, ?_⟩
    rintro ⟨c', hc', other, hother, hasync, hcut⟩
    exact hcut (hbefore c' hc' other hother hasync)
  · rintro ⟨j, c, hnames, hopen, hawait, hbefore⟩
    refine .back hnames hopen hawait fun c' hc' other hother hasync => ?_
    by_contra hcut
    exact hbefore ⟨c', hc', other, hother, hasync, hcut⟩

/-- What is found at a record is whether the file that it names is asynchronous, unless the record is cut. -/
theorem Known.found_iff (h : Known g F ((i, k) :: path) s) (hsound : g.Sound s)
    (hchain : Chain F ((i, k) :: path)) (hnames : g.Names .stmt i k j ∨ g.Names .require i k j) (hj : s.Met j) :
    s.Found j ↔ g.Async j ∧ ¬g.Cut F i k := by
  have hunique : ∀ j', g.Names .stmt i k j' ∨ g.Names .require i k j' → j' = j := by
    rintro j' (h' | h') <;> rcases hnames with hnames | hnames <;> exact (names_unique h' hnames).2
  have hcut : g.Cut F i k → ∃ c, (j, c) ∈ (i, k) :: path ∧ ¬s.Found j := by
    intro hcut
    obtain ⟨j', c, hnames', hopen, hawait, hbefore⟩ := cut_iff.mp hcut
    obtain rfl := hunique j' hnames'
    have hmem := (open_iff hchain).mp hopen
    exact ⟨c, hmem, fun hfound => ((h.frames _ hmem).found.mp hfound).elim hawait hbefore⟩
  constructor
  · intro hfound
    refine ⟨hsound.async hfound, fun hback => ?_⟩
    obtain ⟨c, -, hnot⟩ := hcut hback
    exact hnot hfound
  · rintro ⟨hasync, hnot⟩
    by_cases hpath : j ∈ ((i, k) :: path).map Prod.fst
    · obtain ⟨⟨j', c⟩, hmem, rfl⟩ := List.mem_map.mp hpath
      by_contra hfound
      rw [(h.frames _ hmem).found, not_or] at hfound
      exact hnot (cut_iff.mpr ⟨_, c, hnames, (open_iff hchain).mpr hmem, hfound⟩)
    · exact (h.done j hj hpath).found.mpr hasync

/-! ### One record -/

theorem kept_of_ne {check : TlaCheck} (hne : j ≠ i) : Kept s (s.setCheck i check) j :=
  ⟨State.checks_setCheck_of_ne s check hne, rfl, fun _ => .rfl⟩

/-- What a record makes of what is known of the file that it names. -/
structure Taken (g : Graph) (kind : ImportKind) (source k other : Nat) (s s' : State) : Prop where
  sound : g.Sound s'
  met : ∀ i, s'.Met i ↔ s.Met i
  kept : ∀ i, i ≠ source → Kept s s' i
  found : s'.Found source ↔ s.Found source ∨ kind = .stmt ∧ s.Found other
  reported : ∀ k', s'.Reported source k' ↔ s.Reported source k' ∨ k' = k ∧ kind = .require ∧ s.Found other

/-- A file gets a parent that it imports. -/
theorem Sound.setCheck (h : g.Sound s) (hnames : g.Names .stmt source k other) (hmet : s.Met source)
    (hother : s.Found other) (hless : (s.checks source).parent = none ∨ (s.checks other).depth < (s.checks source).depth) :
    Taken g .stmt source k other s (s.setCheck source ⟨(s.checks other).depth + 1, some other, some k⟩) := by
  have hself : (s.setCheck source ⟨(s.checks other).depth + 1, some other, some k⟩).checks source =
      ⟨(s.checks other).depth + 1, some other, some k⟩ := State.checks_setCheck_self ..
  have hkept : ∀ i, i ≠ source → Kept s (s.setCheck source ⟨(s.checks other).depth + 1, some other, some k⟩) i :=
    fun i hi => kept_of_ne hi
  have hisAsync : (s.setCheck source ⟨(s.checks other).depth + 1, some other, some k⟩).isAsync = s.isAsync := rfl
  have hlog : (s.setCheck source ⟨(s.checks other).depth + 1, some other, some k⟩).log = s.log := rfl
  generalize s.setCheck source ⟨(s.checks other).depth + 1, some other, some k⟩ = s' at hself hkept hisAsync hlog ⊢
  have hne : other ≠ source := by
    rintro rfl
    rcases hless with hnone | hlt
    · exact hother hnone
    · exact Nat.lt_irrefl _ hlt
  have hfoundSource : s'.Found source := by
    rw [State.Found, hself]
    exact Option.some_ne_none _
  have hmetSource : s'.Met source := by
    rw [State.Met, hself]
    exact Nat.succ_ne_zero _
  have hmet' : ∀ i, s'.Met i ↔ s.Met i := by
    intro i
    by_cases heq : i = source
    · exact heq ▸ ⟨fun _ => hmet, fun _ => hmetSource⟩
    · exact (hkept i heq).met
  have hfound : ∀ i, s.Found i → s'.Found i := by
    intro i hi
    by_cases heq : i = source
    · exact heq ▸ hfoundSource
    · exact (hkept i heq).found.mpr hi
  have hreported : ∀ i k', s'.Reported i k' ↔ s.Reported i k' := by
    intro i k'
    unfold State.Reported
    rw [hlog]
  refine ⟨⟨?_, ?_, ?_, ?_, ?_, ?_⟩, hmet', hkept, ?_, ?_⟩
  · intro i hi
    by_cases heq : i = source
    · exact heq ▸ hmetSource
    · exact (hmet' i).mpr (h.unmet i ((hkept i heq).found.mp hi))
  · exact fun i hi hawait => hfound i (h.awaits i ((hmet' i).mp hi) hawait)
  · intro i j hij
    by_cases heq : i = source
    · subst heq
      rw [hself] at hij
      cases hij
      refine .inr ⟨k, by rw [hself], hnames, hfound other hother, ?_⟩
      rw [(hkept other hne).check, hself]
      exact Nat.lt_succ_self _
    · rw [(hkept i heq).check] at hij
      refine (h.parents i j hij).imp_right ?_
      rintro ⟨k', hindex, hnames', hfound', hlt⟩
      refine ⟨k', by rwa [(hkept i heq).check], hnames', hfound j hfound', ?_⟩
      rw [(hkept i heq).check]
      by_cases hj : j = source
      · subst hj
        rw [hself]
        exact Nat.lt_of_le_of_lt (hless.resolve_left hfound') hlt
      · rwa [(hkept j hj).check]
  · exact fun i hi => hfound i (h.flags i (hisAsync ▸ hi))
  · exact fun e he => h.reports e (hlog ▸ he)
  · exact fun i k' hi => (hmet' i).mpr (h.logged i k' ((hreported i k').mp hi))
  · exact ⟨fun _ => .inr ⟨rfl, hother⟩, fun _ => hfoundSource⟩
  · intro k'
    rw [hreported]
    refine ⟨.inl, ?_⟩
    rintro (hk | ⟨-, hkind, -⟩)
    · exact hk
    · cases hkind

/-- An error for a `require` -/
theorem Sound.report (h : g.Sound s) {e : Report} (he : g.Justified e) (hfor : e.source = source)
    (hindex : e.importRecordIndex = k) (hmet : s.Met source) (hother : s.Found other) :
    Taken g .require source k other s {s with log := s.log ++ [e]} := by
  have hreported : ∀ i k', ({s with log := s.log ++ [e]} : State).Reported i k' ↔ s.Reported i k' ∨ i = source ∧ k' = k := by
    intro i k'
    unfold State.Reported
    simp only [List.mem_append, List.mem_singleton, or_and_right, exists_or, exists_eq_left, hfor, hindex]
    rw [eq_comm (a := source), eq_comm (a := k)]
  refine ⟨⟨h.unmet, h.awaits, h.parents, h.flags, ?_, ?_⟩, fun _ => .rfl, fun i hi => ⟨rfl, rfl, fun k' => ?_⟩, ?_, ?_⟩
  · intro e' he'
    rcases List.mem_append.mp he' with he' | he'
    · exact h.reports e' he'
    · exact List.mem_singleton.mp he' ▸ he
  · intro i k' hi
    rcases (hreported i k').mp hi with hi | ⟨rfl, -⟩
    · exact h.logged i k' hi
    · exact hmet
  · rw [hreported]
    exact ⟨fun hk => hk.resolve_right fun heq => hi heq.1, .inl⟩
  · refine ⟨.inl, ?_⟩
    rintro (hfound | ⟨hkind, -⟩)
    · exact hfound
    · cases hkind
  · intro k'
    rw [hreported]
    exact or_congr_right ⟨fun hk => ⟨hk.2, rfl, hother⟩, fun hk => ⟨rfl, hk.1⟩⟩

theorem takeCheck_spec (h : g.Sound s) {record : ImportRecord}
    (hlimit : g.files.length < limit) (hmet : s.Met source) (hrecord : (g.importRecords source)[k]? = some record)
    (hsource : record.sourceIndex = some other) :
    ∃ s', g.takeCheck limit source k record other s = some s' ∧ Taken g record.kind source k other s s' := by
  have hnames : g.Names record.kind source k other := ⟨record, hrecord, rfl, hsource⟩
  have hsame : (s.Found other → record.kind = .stmt → s.Found source) → (s.Found other → record.kind ≠ .require) →
      Taken g record.kind source k other s s := by
    intro hstmt hrequire
    refine ⟨h, fun _ => .rfl, fun i _ => .refl s i, ⟨.inl, ?_⟩, fun k' => ⟨.inl, ?_⟩⟩
    · rintro (hfound | ⟨hkind, hfound⟩)
      · exact hfound
      · exact hstmt hfound hkind
    · rintro (hk | ⟨-, hkind, hfound⟩)
      · exact hk
      · exact absurd hkind (hrequire hfound)
  unfold takeCheck
  dsimp only
  split
  · rename_i hnone
    exact ⟨s, rfl, hsame (fun hfound => absurd hnone hfound) fun hfound => absurd hnone hfound⟩
  rename_i hfound
  split
  · rename_i hstmt
    refine ⟨_, rfl, ?_⟩
    rw [hstmt.1] at hnames ⊢
    exact h.setCheck hnames hmet hfound hstmt.2
  rename_i hnot
  split
  · rename_i hrequire
    obtain ⟨notes, tlaPath, hchain, hend⟩ := chain_spec h hfound (Nat.lt_of_le_of_lt (g.card_nearer_le s other) hlimit) []
    rw [hchain]
    refine ⟨_, rfl, ?_⟩
    rw [hrequire] at hnames ⊢
    exact h.report ⟨⟨other, hnames, h.async hfound⟩, hend⟩ rfl rfl hmet hfound
  · rename_i hrequire
    exact ⟨s, rfl, hsame (fun _ hkind hnone => hnot ⟨hkind, .inl hnone⟩) fun _ => hrequire⟩

/-- What a call owes: nothing changes of the files that were met before it. -/
structure Validated (g : Graph) (F : Forest) (path : List (Nat × Nat)) (i : Nat) (s s' : State) (forest forest' : Forest) :
    Prop where
  sound : g.Sound s'
  met : s'.Met i
  grows : ∀ j, s.Met j → s'.Met j
  kept : ∀ j, s.Met j → Kept s s' j
  agrees : Agrees forest' s'
  extended : Extends forest' forest
  known : Extends F forest' → Chain F path → Expects g F (path.map Prod.fst) s' → Known g F path s → Known g F path s'

/-- What the records from `k` to `k'` owe. -/
structure Looked (g : Graph) (F : Forest) (path : List (Nat × Nat)) (source k k' : Nat) (s s' : State)
    (forest forest' : Forest) : Prop where
  sound : g.Sound s'
  grows : ∀ j, s.Met j → s'.Met j
  kept : ∀ j, s.Met j → j ≠ source → Kept s s' j
  agrees : Agrees forest' s'
  extended : Extends forest' forest
  known : Extends F forest' → Chain F ((source, k) :: path) → Expects g F (source :: path.map Prod.fst) s' →
    Known g F ((source, k) :: path) s → Known g F ((source, k') :: path) s'

theorem Looked.trans {source k' k'' : Nat} {s₁ s₂ : State} {forest₁ forest₂ : Forest}
    (h : Looked g F path source k k' s s₁ forest forest₁) (h' : Looked g F path source k' k'' s₁ s₂ forest₁ forest₂) :
    Looked g F path source k k'' s s₂ forest forest₂ where
  sound := h'.sound
  grows j hj := h'.grows j (h.grows j hj)
  kept j hj hne := (h.kept j hj hne).trans (h'.kept j (h.grows j hj) hne)
  agrees := h'.agrees
  extended := h.extended.trans h'.extended
  known hF hchain hexpects hknown := by
    have hmid : Expects g F (source :: path.map Prod.fst) s₁ :=
      hexpects.of_kept fun j hj hfiles => h'.kept j hj fun heq => hfiles (heq ▸ List.mem_cons_self)
    exact h'.known hF hchain hexpects (h.known (h'.extended.trans hF) hchain hmid hknown)

/-- A file whose next record was looked at, while nothing changed of the others. -/
theorem Known.next (h : Known g F ((source, k) :: path) s)
    (hpath : source ∉ path.map Prod.fst) (hmet : ∀ i, s'.Met i ↔ s.Met i) (hkept : ∀ i, i ≠ source → Kept s s' i)
    (hframe : Frame g F s' source (k + 1)) : Known g F ((source, k + 1) :: path) s' where
  met i hi := (hmet i).mpr (h.met i hi)
  frames := by
    intro frame hframe'
    rcases List.mem_cons.mp hframe' with rfl | hmem
    · exact hframe
    · have hne : frame.1 ≠ source := fun heq => hpath (heq ▸ List.mem_map_of_mem hmem)
      exact (h.frames frame (List.mem_cons_of_mem _ hmem)).of_kept (hkept _ hne)
  done i hi hfiles :=
    (h.done i ((hmet i).mp hi) hfiles).of_kept (hkept i fun heq => hfiles (heq ▸ List.mem_cons_self))

/-- The files that were not met. -/
noncomputable def unmet (g : Graph) (s : State) : Nat := Marking.remaining (Finset.range g.files.length) {i | s.Met i}

theorem unmet_le (h : ∀ i, s.Met i → s'.Met i) : g.unmet s' ≤ g.unmet s := Marking.remaining_mono _ h

section Visit
variable {path : List (Nat × Nat)} {validate : Nat → State → Option State} {limit source n : Nat}
  {search : Option (Nat × Nat) → Nat → Forest → Forest} (hlimit : g.files.length < limit)
  (hvalidate : ∀ path i s forest, i < g.files.length → g.Sound s → Agrees forest s → g.unmet s < n →
    ∃ s', validate i s = some s' ∧ Validated g F path i s s' forest (search path.head? i forest))
include hlimit hvalidate

theorem visitRecord_spec (h : g.Sound s) (hagrees : Agrees forest s) (hn : g.unmet s < n) (hmet : s.Met source)
    {record : ImportRecord} (hrecord : (g.importRecords source)[k]? = some record) :
    ∃ s', g.visitRecord validate limit source s (record, k) = some s' ∧
      Looked g F path source k (k + 1) s s' forest (searchRecord search source forest (record, k)) := by
  have hskip : (∀ other, record.sourceIndex = some other → ¬(record.kind = .require ∨ record.kind = .stmt)) →
      Looked g F path source k (k + 1) s s forest forest := by
    intro hnot
    have hleads : ∀ {kind : ImportKind}, kind = .require ∨ kind = .stmt → ¬g.Leads F kind source k := by
      rintro kind hkind ⟨j, ⟨record', hrecord', rfl, hsource⟩, -⟩
      cases hrecord.symm.trans hrecord'
      exact hnot j hsource hkind
    refine ⟨h, fun _ => id, fun j _ _ => .refl s j, hagrees, .refl forest, fun _ hchain _ hknown => ?_⟩
    refine hknown.next hchain.2.1 (fun _ => .rfl) (fun i _ => .refl s i) ?_
    refine (hknown.frames _ List.mem_cons_self).next ?_ fun k' => ?_
    · exact ⟨.inl, fun hor => hor.resolve_right (hleads (.inr rfl))⟩
    · exact ⟨.inl, fun hor => hor.resolve_right fun hk => hleads (.inl rfl) hk.2⟩
  unfold visitRecord searchRecord
  dsimp only
  cases hsource : record.sourceIndex with
  | none => exact ⟨s, rfl, hskip fun other hother => absurd (hsource.symm.trans hother) (Option.some_ne_none _).symm⟩
  | some other =>
    dsimp only
    split
    · rename_i hkind
      have hnames : g.Names record.kind source k other := ⟨record, hrecord, rfl, hsource⟩
      have hlt : other < g.files.length := hnames.lt.2.2
      obtain ⟨mid, hcall, hvalidated⟩ := hvalidate ((source, k) :: path) other s forest hlt h hagrees hn
      obtain ⟨s', htake, htaken⟩ :=
        takeCheck_spec hvalidated.sound hlimit (hvalidated.grows _ hmet) hrecord hsource
      refine ⟨s', by rw [hcall]; exact htake, ?_⟩
      constructor
      · exact htaken.sound
      · exact fun j hj => (htaken.met j).mpr (hvalidated.grows j hj)
      · exact fun j hj hne => (hvalidated.kept j hj).trans (htaken.kept j hne)
      · exact fun j => (htaken.met j).trans (hvalidated.agrees j)
      · exact hvalidated.extended
      · intro hF hchain hexpects hknown
        have hmid := hvalidated.known hF hchain
          (hexpects.of_kept fun j _ hfiles => htaken.kept j fun heq => hfiles (heq ▸ List.mem_cons_self)) hknown
        have hfound : ∀ {kind : ImportKind}, kind = .require ∨ kind = .stmt →
            (record.kind = kind ∧ mid.Found other ↔ g.Leads F kind source k) := by
          intro kind hor
          have hiff : ∀ {j}, g.Names kind source k j → (mid.Found other ↔ g.Async other ∧ ¬g.Cut F source k) := by
            intro j hnames
            obtain ⟨rfl, rfl⟩ := names_unique hnames ⟨record, hrecord, rfl, hsource⟩
            refine hmid.found_iff hvalidated.sound hchain ?_ hvalidated.met
            rcases hor with hor | hor
            · exact .inr (hor ▸ hnames)
            · exact .inl (hor ▸ hnames)
          constructor
          · rintro ⟨rfl, hother⟩
            exact ⟨other, ⟨record, hrecord, rfl, hsource⟩, (hiff ⟨record, hrecord, rfl, hsource⟩).mp hother⟩
          · rintro ⟨j, hnames, hleads⟩
            obtain ⟨rfl, rfl⟩ := names_unique hnames ⟨record, hrecord, rfl, hsource⟩
            exact ⟨rfl, (hiff hnames).mpr hleads⟩
        refine hmid.next hchain.2.1 htaken.met htaken.kept ?_
        refine (hmid.frames _ List.mem_cons_self).next ?_ fun k' => ?_
        · rw [htaken.found, hfound (.inr rfl)]
        · rw [htaken.reported, hfound (.inl rfl)]
    · rename_i hkind
      exact ⟨s, rfl, hskip fun _ _ => hkind⟩

theorem visitRecords_spec (records : List ImportRecord) (k : Nat)
    (hrecords : ∀ j record, records[j]? = some record → (g.importRecords source)[k + j]? = some record) (h : g.Sound s)
    (hagrees : Agrees forest s) (hn : g.unmet s < n) (hmet : s.Met source) :
    ∃ s', (records.zipIdx k).foldlM (g.visitRecord validate limit source) s = some s' ∧
      Looked g F path source k (k + records.length) s s' forest
        ((records.zipIdx k).foldl (searchRecord search source) forest) := by
  induction records generalizing s k forest with
  | nil =>
    exact ⟨s, rfl, h, fun _ => id, fun j _ _ => .refl s j, hagrees, .refl forest, fun _ _ _ => id⟩
  | cons record records ih =>
    have hrecord : (g.importRecords source)[k]? = some record := hrecords 0 record rfl
    obtain ⟨mid, hstep, hlooked⟩ :
        ∃ mid, g.visitRecord validate limit source s (record, k) = some mid ∧
          Looked g F path source k (k + 1) s mid forest (searchRecord search source forest (record, k)) :=
      visitRecord_spec hlimit hvalidate h hagrees hn hmet hrecord
    obtain ⟨s', hrest, hlooked'⟩ := ih (k + 1) (fun j r hj => by
      rw [Nat.add_assoc, Nat.add_comm 1 j]
      exact hrecords (j + 1) r hj) hlooked.sound hlooked.agrees ((unmet_le hlooked.grows).trans_lt hn)
      (hlooked.grows _ hmet)
    refine ⟨s', ?_, ?_⟩
    · rw [List.zipIdx_cons, List.foldlM_cons, hstep]
      exact hrest
    · rw [List.zipIdx_cons, List.foldl_cons, List.length_cons, Nat.add_comm records.length, ← Nat.add_assoc]
      exact hlooked.trans hlooked'

end Visit

/-! ### One file -/

/-- A file is met for the first time. -/
theorem Sound.open (h : g.Sound s) (hi : ¬s.Met i) (check : TlaCheck) (hdepth : check.depth = 1)
    (hparent : check.parent = if 0 < (g.keyword i).len then some i else (s.checks i).parent) :
    g.Sound (s.setCheck i check) ∧ (s.setCheck i check).Met i ∧ ((s.setCheck i check).Found i ↔ g.HasAwait i) := by
  have hnone : (s.checks i).parent = none := by
    by_contra hfound
    exact hi (h.unmet i hfound)
  rw [hnone] at hparent
  have hself : (s.setCheck i check).checks i = check := State.checks_setCheck_self ..
  have hkept : ∀ j, j ≠ i → Kept s (s.setCheck i check) j := fun j hj => kept_of_ne hj
  have hreported : ∀ j k, (s.setCheck i check).Reported j k ↔ s.Reported j k := fun _ _ => .rfl
  have hlog : (s.setCheck i check).log = s.log := rfl
  have hisAsync : (s.setCheck i check).isAsync = s.isAsync := rfl
  generalize s.setCheck i check = s' at hself hkept hreported hlog hisAsync ⊢
  have hmet : s'.Met i := by
    rw [State.Met, hself, hdepth]
    exact Nat.one_ne_zero
  have hawait : s'.Found i ↔ g.HasAwait i := by
    rw [State.Found, hself, hparent]
    unfold HasAwait
    split
    · rename_i hlen
      exact ⟨fun _ => hlen, fun _ => Option.some_ne_none _⟩
    · rename_i hlen
      exact ⟨fun hne => absurd rfl hne, fun hlen' => absurd hlen' hlen⟩
  have hne : ∀ {j}, s.Met j → j ≠ i := by
    rintro j hj rfl
    exact hi hj
  have hfound : ∀ j, s.Found j → s'.Found j := fun j hj => (hkept j (hne (h.unmet j hj))).found.mpr hj
  refine ⟨⟨?_, ?_, ?_, ?_, ?_, ?_⟩, hmet, hawait⟩
  · intro j hj
    by_cases heq : j = i
    · exact heq ▸ hmet
    · exact (hkept j heq).met.mpr (h.unmet j ((hkept j heq).found.mp hj))
  · intro j hj hawait'
    by_cases heq : j = i
    · exact heq ▸ hawait.mpr (heq ▸ hawait')
    · exact hfound j (h.awaits j ((hkept j heq).met.mp hj) hawait')
  · intro j l hjl
    by_cases heq : j = i
    · subst heq
      refine .inl (hawait.mp fun hnone => ?_)
      rw [hnone] at hjl
      cases hjl
    · rw [(hkept j heq).check] at hjl
      refine (h.parents j l hjl).imp_right ?_
      rintro ⟨index, hindex, hnames, hl, hlt⟩
      have hcheck := (hkept j heq).check
      have hcheckParent := (hkept l (hne (h.unmet l hl))).check
      exact ⟨index, by rwa [hcheck], hnames, hfound l hl, by rwa [hcheck, hcheckParent]⟩
  · exact fun j hj => hfound j (h.flags j (hisAsync ▸ hj))
  · exact fun e he => h.reports e (hlog ▸ he)
  · intro j k hjk
    have hj := h.logged j k ((hreported j k).mp hjk)
    exact (hkept j (hne hj)).met.mpr hj

/-- The flag is set last. -/
def State.finish (s : State) (i : Nat) : State :=
  if (s.checks i).parent = none then s else {s with isAsync := Function.update s.isAsync i true}

/-- What the end of a call changes -/
structure Finished (g : Graph) (i : Nat) (s s' : State) : Prop where
  sound : g.Sound s'
  met : ∀ j, s'.Met j ↔ s.Met j
  kept : ∀ j, j ≠ i → Kept s s' j
  frame : ∀ {F : Forest} {k : Nat}, Frame g F s i k → Frame g F s' i k
  flag : s'.isAsync i = true ↔ s'.Found i

theorem Sound.finish (h : g.Sound s) (i : Nat) : Finished g i s (State.finish s i) := by
  unfold State.finish
  split
  · rename_i hnone
    refine ⟨h, fun _ => .rfl, fun j _ => .refl s j, id, fun hflag => h.flags i hflag, fun hfound => absurd hnone hfound⟩
  · rename_i hfound
    have hflag : ∀ j, Function.update s.isAsync i true j = true → s.Found j := by
      intro j hj
      by_cases heq : j = i
      · exact heq ▸ hfound
      · rw [Function.update_of_ne heq] at hj
        exact h.flags j hj
    refine ⟨⟨h.unmet, h.awaits, h.parents, hflag, h.reports, h.logged⟩, fun _ => .rfl, fun j hj => ⟨rfl, ?_, fun _ => .rfl⟩,
      fun hframe => ⟨hframe.found, hframe.reported⟩, fun _ => hfound, fun _ => Function.update_self ..⟩
    exact Function.update_of_ne hj ..

/-- A file that is met is open at its first record. -/
theorem Known.open (h : Known g F path s) (hsound : g.Sound s) (hi : ¬s.Met i)
    (hkept : ∀ j, j ≠ i → Kept s s' j) (hmet : s'.Met i) (hreported : ∀ k, s'.Reported i k ↔ s.Reported i k)
    (hfound : s'.Found i ↔ g.HasAwait i) : Known g F ((i, 0) :: path) s' where
  met := by
    intro j hj
    rcases List.mem_cons.mp hj with rfl | hj
    · exact hmet
    · have hmetj := h.met j hj
      exact (hkept j fun heq => hi (heq ▸ hmetj)).met.mpr hmetj
  frames := by
    intro frame hframe
    rcases List.mem_cons.mp hframe with rfl | hmem
    · refine ⟨hfound.trans ⟨.inl, fun hor => hor.resolve_right ?_⟩, fun k => ?_⟩
      · rintro ⟨k, hk, -⟩
        exact Nat.not_lt_zero k hk
      · rw [hreported]
        exact ⟨fun hk => absurd (hsound.logged i k hk) hi, fun hk => absurd hk.1 (Nat.not_lt_zero k)⟩
    · have hmetFrame := h.met frame.1 (List.mem_map_of_mem hmem)
      exact (h.frames frame hmem).of_kept (hkept _ fun heq => hi (heq ▸ hmetFrame))
  done j hj hfiles := by
    have hne : j ≠ i := fun heq => hfiles (heq ▸ List.mem_cons_self)
    exact (h.done j ((hkept j hne).met.mp hj) fun hmem => hfiles (List.mem_cons_of_mem _ hmem)).of_kept (hkept j hne)

/-- A file whose records were all looked at is done. -/
theorem Known.close (h : Known g F ((i, (g.importRecords i).length) :: path) s)
    (hpath : i ∉ path.map Prod.fst) (hfinished : Finished g i s s') (hexpects : Expects g F (path.map Prod.fst) s') :
    Known g F path s' := by
  have hne : ∀ j ∈ path.map Prod.fst, j ≠ i := by
    rintro j hj rfl
    exact hpath hj
  have hframe := hfinished.frame (h.frames _ List.mem_cons_self)
  have hasync : g.Async i → s'.Found i := by
    intro hasync
    rcases hexpects with hanswered | hright
    · by_cases hawait : g.HasAwait i
      · exact hframe.found.mpr (.inl hawait)
      · obtain ⟨k, j, hnames, hj, hcut⟩ := hanswered i hasync hawait
        exact hframe.found.mpr (.inr ⟨k, hnames.lt.2.1, j, hnames, hj, hcut⟩)
    · exact hright i ((hfinished.met i).mpr (h.met i List.mem_cons_self)) hpath hasync
  refine ⟨fun j hj => ?_, fun frame hmem => ?_, fun j hj hfiles => ?_⟩
  · exact (hfinished.met j).mpr (h.met j (List.mem_cons_of_mem _ hj))
  · exact (h.frames frame (List.mem_cons_of_mem _ hmem)).of_kept (hfinished.kept _ (hne _ (List.mem_map_of_mem hmem)))
  · by_cases heq : j = i
    · subst heq
      exact ⟨hframe, hfinished.flag, fun hfound => hfinished.sound.async hfound, hasync⟩
    · have hother : j ∉ i :: path.map Prod.fst := fun hmem => (List.mem_cons.mp hmem).elim heq hfiles
      exact (h.done j ((hfinished.met j).mp hj) hother).of_kept (hfinished.kept j heq)

/-- A call ends, and meets the files that the search meets. -/
theorem validateTla_spec (hlimit : g.files.length < limit) (fuel n : Nat) (path : List (Nat × Nat)) (i : Nat)
    (s : State) (forest : Forest) (hi : i < g.files.length) (h : g.Sound s) (hagrees : Agrees forest s)
    (hfuel : g.unmet s < fuel) (hn : g.unmet s < n) :
    ∃ s', g.validateTla limit fuel i s = some s' ∧ Validated g F path i s s' forest (g.search n path.head? i forest) := by
  induction fuel generalizing n path i s forest with
  | zero => exact absurd hfuel (Nat.not_lt_zero _)
  | succ fuel ih =>
    obtain ⟨n, rfl⟩ : ∃ n', n = n' + 1 := Nat.exists_eq_succ_of_ne_zero (Nat.ne_zero_of_lt hn)
    unfold validateTla search
    by_cases hmet : s.Met i
    · have hforest : ¬forest i = none := (hagrees i).mp hmet
      rw [if_neg hmet, if_neg hforest]
      exact ⟨s, rfl, h, hmet, fun _ => id, fun j _ => .refl s j, hagrees, .refl forest, fun _ _ _ => id⟩
    · have hfresh : (s.checks i).depth = 0 := Decidable.not_not.mp hmet
      have hforest : forest i = none := Decidable.not_not.mp fun hne => hmet ((hagrees i).mpr hne)
      rw [if_pos hfresh, if_pos hforest]
      dsimp only
      generalize hcheck : ({s.checks i with
        depth := 1, parent := if 0 < (g.keyword i).len then some i else (s.checks i).parent} : TlaCheck) = check
      obtain ⟨hsound, hmetSelf, hfoundSelf⟩ := h.open hmet check (hcheck ▸ rfl) (hcheck ▸ rfl)
      have hkept : ∀ j, j ≠ i → Kept s (s.setCheck i check) j := fun j hj => kept_of_ne hj
      have hne : ∀ {j}, s.Met j → j ≠ i := by
        rintro j hj rfl
        exact hmet hj
      have hagreesOpen : Agrees (Function.update forest i (some path.head?)) (s.setCheck i check) := by
        intro j
        by_cases heq : j = i
        · rw [heq, Function.update_self]
          exact ⟨fun _ => Option.some_ne_none _, fun _ => hmetSelf⟩
        · rw [(hkept j heq).met, Function.update_of_ne heq]
          exact hagrees j
      have hless : g.unmet (s.setCheck i check) < g.unmet s := by
        have hsub : insert i {j | s.Met j} ⊆ {j | (s.setCheck i check).Met j} :=
          Set.insert_subset hmetSelf fun j hj => (hkept j (hne hj)).met.mpr hj
        exact (Marking.remaining_mono _ hsub).trans_lt (Marking.remaining_insert _ (Finset.mem_range.mpr hi) hmet)
      have ⟨mid, hrecords, hlooked⟩ : ∃ s', _ ∧ Looked g F path i 0 _ _ s' _ _ := visitRecords_spec hlimit
        (fun path j s forest hj hs hforest (hsn : _ < min fuel n) =>
          ih n path j s forest hj hs hforest (hsn.trans_le (min_le_left ..)) (hsn.trans_le (min_le_right ..)))
        (g.importRecords i) 0 (fun j record hj => by rwa [Nat.zero_add]) hsound hagreesOpen (by omega) hmetSelf
      have hfinished := hlooked.sound.finish i
      have hgrows : ∀ j, s.Met j → mid.Met j := fun j hj => hlooked.grows j ((hkept j (hne hj)).met.mpr hj)
      refine ⟨State.finish mid i, by rw [hrecords]; rfl, ?_⟩
      constructor
      · exact hfinished.sound
      · exact (hfinished.met i).mpr (hlooked.grows i hmetSelf)
      · exact fun j hj => (hfinished.met j).mpr (hgrows j hj)
      · intro j hj
        have hmid := hlooked.kept j ((hkept j (hne hj)).met.mpr hj) (hne hj)
        exact ((hkept j (hne hj)).trans hmid).trans (hfinished.kept j (hne hj))
      · exact fun j => (hfinished.met j).trans (hlooked.agrees j)
      · exact (extends_update hforest _).trans hlooked.extended
      · intro hF hchain hexpects hknown
        have hpath : i ∉ path.map Prod.fst := fun hmem => hmet (hknown.met i hmem)
        have horigin : F i = some path.head? := (hlooked.extended.trans hF) i _ (Function.update_self ..)
        have hopen := hknown.open h hmet hkept hmetSelf (fun _ => .rfl) hfoundSelf
        have hmid : Expects g F (i :: path.map Prod.fst) mid := by
          refine hexpects.imp_right fun hright j hj hfiles hasync => ?_
          have hji : j ≠ i := fun heq => hfiles (heq ▸ List.mem_cons_self)
          exact (hfinished.kept j hji).found.mp
            (hright j ((hfinished.met j).mpr hj) (fun hmem => hfiles (List.mem_cons_of_mem _ hmem)) hasync)
        have hall := hlooked.known hF ⟨horigin, hpath, hchain⟩ hmid hopen
        rw [Nat.zero_add] at hall
        exact hall.close hpath hfinished hexpects

/-! ### All files -/

/-- The flags and the errors are those of the files that are asynchronous. -/
structure Exact (g : Graph) (s : State) : Prop where
  flags : ∀ i < g.files.length, s.isAsync i = true ↔ g.Async i
  reports : ∀ i k, s.Reported i k ↔ ∃ j, g.Names .require i k j ∧ g.Async j

theorem sound_init (g : Graph) : g.Sound .init where
  unmet := fun _ hfound => absurd rfl hfound
  awaits := fun _ hmet => absurd rfl hmet
  parents := fun i j hij => by cases hij
  flags := fun i hi => by cases hi
  reports := List.forall_mem_nil _
  logged := by
    rintro i k ⟨e, he, -⟩
    cases he

/-- The calls for the files of a list, as those of a search -/
theorem validateAll_spec {limit fuel : Nat} (hlimit : g.files.length < limit) (hfuel : g.files.length < fuel)
    (order : List Nat) (horder : ∀ i ∈ order, i < g.files.length) (h : g.Sound s) (hagrees : Agrees forest s) :
    ∃ s', order.foldlM (fun s i => g.validateTla limit fuel i s) s = some s' ∧ g.Sound s' ∧
      (∀ i, s.Met i → s'.Met i) ∧ (∀ i, s.Met i → Kept s s' i) ∧ (∀ i ∈ order, s'.Met i) ∧
        Extends (order.foldl (fun forest i => g.search (g.files.length + 1) none i forest) forest) forest ∧
          (Extends F (order.foldl (fun forest i => g.search (g.files.length + 1) none i forest) forest) →
            Expects g F [] s' → Known g F [] s → Known g F [] s') := by
  induction order generalizing s forest with
  | nil =>
    exact ⟨s, rfl, h, fun _ => id, fun i _ => .refl s i, List.forall_mem_nil _, .refl forest, fun _ _ => id⟩
  | cons i order ih =>
    have hcard : g.unmet s ≤ g.files.length := by
      have hle := Marking.remaining_le_card (Finset.range g.files.length) {i | s.Met i}
      rwa [Finset.card_range] at hle
    obtain ⟨mid, hcall, hvalidated⟩ := validateTla_spec (F := F) hlimit fuel (g.files.length + 1) [] i s forest
      (horder i List.mem_cons_self) h hagrees (hcard.trans_lt hfuel) (Nat.lt_succ_of_le hcard)
    obtain ⟨s', hs', hsound, hgrows, hkept, hmet, hextends, hknown⟩ :=
      ih (fun j hj => horder j (List.mem_cons_of_mem i hj)) hvalidated.sound hvalidated.agrees
    refine ⟨s', ?_, hsound, fun j hj => hgrows j (hvalidated.grows j hj),
      fun j hj => (hvalidated.kept j hj).trans (hkept j (hvalidated.grows j hj)), ?_, hvalidated.extended.trans hextends, ?_⟩
    · rw [List.foldlM_cons, hcall]
      exact hs'
    · exact List.forall_mem_cons.mpr ⟨hgrows i hvalidated.met, hmet⟩
    · intro hF hexpects hstart
      have hmid : Expects g F [] mid := hexpects.of_kept fun j hj _ => hkept j hj
      exact hknown hF hexpects (hvalidated.known (hextends.trans hF) trivial hmid hstart)

/-- The calls for all files end, in any order, and every error has notes that end at an await. The flags and the errors
are exact if and only if no cut does harm. -/
theorem validateAll_exact (g : Graph) (limit fuel : Nat) (hlimit : g.files.length < limit) (hfuel : g.files.length < fuel)
    (order : List Nat) (horder : ∀ i, i ∈ order ↔ i < g.files.length) :
    ∃ s, g.validateAll limit fuel order = some s ∧
      (∀ e ∈ s.log, ∃ j, g.HasAwait j ∧ e.notes.getLast? = some (g.awaitNote j)) ∧
        (g.Exact s ↔ g.Unbroken (g.forest order)) := by
  have hagrees : Agrees (fun _ => none) State.init := fun _ => ⟨fun hmet => absurd rfl hmet, fun hne => absurd rfl hne⟩
  obtain ⟨s, hs, hsound, -, -, hmet, -, hknown⟩ := validateAll_spec (F := g.forest order) hlimit hfuel order
    (fun i hi => (horder i).mp hi) (sound_init g) hagrees
  have hdone : Expects g (g.forest order) [] s → ∀ i < g.files.length, Done g (g.forest order) s i := by
    intro hexpects i hi
    have hstart : Known g (g.forest order) [] State.init :=
      ⟨List.forall_mem_nil _, List.forall_mem_nil _, fun _ hmet => absurd rfl hmet⟩
    exact (hknown (.refl _) hexpects hstart).done i (hmet i ((horder i).mpr hi)) List.not_mem_nil
  refine ⟨s, hs, fun e he => (hsound.reports e he).2, fun h => ?_, fun h => ?_⟩
  · have hexpects : Expects g (g.forest order) [] s :=
      .inr fun i _ _ hasync => hsound.flags i ((h.flags i hasync.lt).mpr hasync)
    refine ⟨fun i hasync hawait => ?_, fun i k j hnames hasync => ?_⟩
    · have hi := hdone hexpects i hasync.lt
      obtain ⟨k, -, j, hnames, hj, hcut⟩ := (hi.frame.found.mp (hi.found.mpr hasync)).resolve_left hawait
      exact ⟨k, j, hnames, hj, hcut⟩
    · obtain ⟨-, j', hnames', -, hcut⟩ :=
        ((hdone hexpects i hnames.lt.1).frame.reported k).mp ((h.reports i k).mpr ⟨j, hnames, hasync⟩)
      exact hcut
  · have hall := hdone (.inl h.answered)
    refine ⟨fun i hi => (hall i hi).flag.trans (hall i hi).found, fun i k => ⟨?_, ?_⟩⟩
    · rintro ⟨e, he, rfl, rfl⟩
      exact (hsound.reports e he).1
    · rintro ⟨j, hnames, hasync⟩
      exact ((hall i hnames.lt.1).frame.reported k).mpr
        ⟨hnames.lt.2.1, j, hnames, hasync, h.require i k j hnames hasync⟩

/-! A file that imports one that leads back to it, and then one that awaits. -/

def cycleGraph (back : ImportKind) : Graph where
  files :=
    [⟨⟨0, 0⟩, [⟨.stmt, some 1, ⟨0, 9⟩⟩, ⟨.stmt, some 2, ⟨10, 9⟩⟩], "a.js"⟩, ⟨⟨0, 0⟩, [⟨back, some 0, ⟨0, 9⟩⟩], "b.js"⟩,
      ⟨⟨0, 5⟩, [], "c.js"⟩]
  records_valid := by simp

theorem validateAll_exact_cycle :
    ∃ s, (cycleGraph .stmt).validateAll 4 4 [0, 2, 1] = some s ∧
      (∀ e ∈ s.log, ∃ j, (cycleGraph .stmt).HasAwait j ∧ e.notes.getLast? = some ((cycleGraph .stmt).awaitNote j)) ∧
        ((cycleGraph .stmt).Exact s ↔ (cycleGraph .stmt).Unbroken ((cycleGraph .stmt).forest [0, 2, 1])) :=
  validateAll_exact (cycleGraph .stmt) 4 4 (by decide) (by decide) [0, 2, 1] (by simp [cycleGraph]; omega)

/-- The `require` of a file that is still walked is not reported. -/
theorem validateAll_misses_require :
    ∃ s, (cycleGraph .require).validateAll 4 4 [0, 1, 2] = some s ∧ ¬(cycleGraph .require).Exact s := by
  obtain ⟨s, hs, hlog⟩ : ∃ s, (cycleGraph .require).validateAll 4 4 [0, 1, 2] = some s ∧ s.log = [] := ⟨_, rfl, rfl⟩
  refine ⟨s, hs, fun h => ?_⟩
  have hasync : (cycleGraph .require).Async 0 := by
    refine ⟨2, .single ?_, ?_⟩
    · exact ⟨⟨.stmt, some 2, ⟨10, 9⟩⟩, by decide, rfl, rfl⟩
    · show (0 : Int) < ((cycleGraph .require).keyword 2).len
      decide
  obtain ⟨e, he, -⟩ := (h.reports 1 0).mpr ⟨0, ⟨⟨.require, some 0, ⟨0, 9⟩⟩, rfl, rfl, rfl⟩, hasync⟩
  rw [hlog] at he
  cases he

end Graph
end Funbun.Bundler.TopLevelAwait
