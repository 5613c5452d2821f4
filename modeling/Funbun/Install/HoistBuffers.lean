import Mathlib.Algebra.GroupWithZero.Nat
import Funbun.Install.HoistProofs

/-! The buffers hoisting returns.

`clean` flattens the folders into one array and gives every tree its slice of it.
The trees that come out are well formed (`hoist_wellFormed`), or there are none at
all: a root package that places nothing leaves no root tree. -/
namespace Funbun.Install
open Library.Ancestry

namespace Buffers
variable (buffers : Buffers)

/-- The entries of a tree. -/
def folder (i : Nat) : List DependencyID :=
  match buffers.trees[i]? with
  | some t => t.dependencies.get buffers.hoistedDependencies
  | none => []

def parent (i : Nat) : Option Nat := (buffers.trees[i]?).bind (·.parent)

def resolution (d : DependencyID) : Option PackageID := (buffers.resolutions[d]?).join

/-- The slices of the trees follow one another and cover the array. -/
def Contiguous : Prop :=
  (∀ (i : Nat) (t : Tree), buffers.trees[i]? = some t →
      t.dependencies.off = ((buffers.trees.take i).map (·.dependencies.len)).sum) ∧
    buffers.hoistedDependencies.length = (buffers.trees.map (·.dependencies.len)).sum

structure WellFormed (lockfile : Lockfile) : Prop where
  id : ∀ (i : Nat) (t : Tree), buffers.trees[i]? = some t → t.id = i
  root : ∃ t, buffers.trees[0]? = some t ∧ t.parent = none ∧ t.dependencyId = none
  parent_lt : ∀ (i : Nat) (t : Tree), 0 < i → buffers.trees[i]? = some t → ∃ p < i, t.parent = some p
  reachable : ∀ i < buffers.trees.length, Ancestor buffers.parent i 0
  contiguous : buffers.Contiguous
  names : ∀ i, ((buffers.folder i).map fun d => (lockfile.dependency d).nameHash).Nodup
  resolved : ∀ d ∈ buffers.hoistedDependencies, (buffers.resolution d).isSome
  /-- A tree is named by an entry of its parent. -/
  named : ∀ (i : Nat) (t : Tree), 0 < i → buffers.trees[i]? = some t →
    ∃ p d, t.parent = some p ∧ t.dependencyId = some d ∧ d ∈ buffers.folder p

end Buffers

/-! ### Flattening -/

section Clean
variable (b : Builder)

/-- The entries of a folder that `clean` keeps. -/
def Builder.kept (e : BuilderEntry) : List DependencyID :=
  e.dependencies.filter fun id => (b.resolution id).isSome

/-- The trees of folders whose entries start at an offset. -/
def Builder.treesFrom (off : Nat) : List BuilderEntry → List Tree
  | [] => []
  | e :: es => {e.tree with dependencies := ⟨off, (b.kept e).length⟩} ::
      treesFrom (off + (b.kept e).length) es

theorem Builder.foldl_cleanTree (es : List BuilderEntry) (buffers : Buffers) :
    es.foldl b.cleanTree buffers =
      {buffers with
        trees := buffers.trees ++ b.treesFrom buffers.hoistedDependencies.length es
        hoistedDependencies := buffers.hoistedDependencies ++ es.flatMap b.kept} := by
  induction es generalizing buffers with
  | nil => simp [treesFrom]
  | cons e es ih =>
    rw [List.foldl_cons, ih]
    simp [cleanTree, treesFrom, kept, List.append_assoc]

theorem Builder.getElem?_treesFrom (off : Nat) (es : List BuilderEntry) (i : Nat) :
    (b.treesFrom off es)[i]? = (es[i]?).map fun e =>
      {e.tree with dependencies := ⟨off + ((es.take i).flatMap b.kept).length, (b.kept e).length⟩} := by
  induction es generalizing off i with
  | nil => simp [treesFrom]
  | cons e es ih =>
    cases i with
    | zero => simp [treesFrom]
    | succ i => simp [treesFrom, ih, Nat.add_assoc]

theorem Builder.clean_hoistedDependencies : b.clean.hoistedDependencies = b.list.flatMap b.kept := by
  simp [clean, foldl_cleanTree]

theorem Builder.clean_resolution (d : DependencyID) : b.clean.resolution d = b.resolution d := by
  simp [clean, foldl_cleanTree, Buffers.resolution, resolution]

theorem Builder.clean_trees (i : Nat) : b.clean.trees[i]? = (b.list[i]?).map fun e =>
    {e.tree with dependencies := ⟨((b.list.take i).flatMap b.kept).length, (b.kept e).length⟩} := by
  simp [clean, foldl_cleanTree, getElem?_treesFrom]

theorem Builder.clean_length : b.clean.trees.length = b.list.length := by
  refine Nat.le_antisymm ?_ ?_
  · rw [← List.getElem?_eq_none_iff, clean_trees]
    simp
  · by_contra hlt
    have hnone := b.clean_trees b.clean.trees.length
    rw [List.getElem?_eq_none (Nat.le_refl _), List.getElem?_eq_getElem (Nat.not_le.mp hlt)] at hnone
    simp at hnone

theorem Builder.clean_parent (i : Nat) : b.clean.parent i = b.parent i := by
  rw [Buffers.parent, clean_trees, Builder.parent]
  cases b.list[i]? <;> rfl

/-- The slice of a tree holds the entries its folder keeps. -/
theorem Builder.clean_folder {i : Nat} {e : BuilderEntry} (he : b.list[i]? = some e) :
    b.clean.folder i = b.kept e := by
  obtain ⟨hi, hei⟩ := List.getElem?_eq_some_iff.mp he
  have hsplit : b.list.flatMap b.kept =
      (b.list.take i).flatMap b.kept ++ (b.kept e ++ (b.list.drop (i + 1)).flatMap b.kept) := by
    conv_lhs => rw [← List.take_append_drop i b.list, List.drop_eq_getElem_cons hi, hei]
    simp
  simp only [Buffers.folder, clean_trees, he, Option.map_some, clean_hoistedDependencies, Slice.get]
  rw [hsplit, List.drop_left, List.take_left]

theorem Builder.clean_contiguous : b.clean.Contiguous := by
  have hlens : b.clean.trees.map (·.dependencies.len) = b.list.map fun e => (b.kept e).length := by
    refine List.ext_getElem? fun i => ?_
    rw [List.getElem?_map, clean_trees, List.getElem?_map, Option.map_map]
    rfl
  refine ⟨fun i t ht => ?_, ?_⟩
  · rw [clean_trees] at ht
    obtain ⟨e, -, rfl⟩ := Option.map_eq_some_iff.mp ht
    rw [List.map_take, hlens, ← List.map_take, List.length_flatMap]
  · rw [clean_hoistedDependencies, hlens, List.length_flatMap]

end Clean

/-! ### The trees are well formed -/

section Hoist
variable {lockfile : Lockfile}

theorem Buffers.reachable_of_parent_lt {buffers : Buffers}
    (h : ∀ (i : Nat) (t : Tree), 0 < i → buffers.trees[i]? = some t → ∃ p < i, t.parent = some p) (i : Nat)
    (hi : i < buffers.trees.length) : Ancestor buffers.parent i 0 := by
  induction i using Nat.strong_induction_on with
  | _ i ih =>
    rcases Nat.eq_zero_or_pos i with rfl | hpos
    · exact .refl
    obtain ⟨p, hp, hparent⟩ := h i _ hpos (List.getElem?_eq_getElem hi)
    refine .head ?_ (ih p hp (hp.trans hi))
    rw [Buffers.parent, List.getElem?_eq_getElem hi, Option.bind_some, hparent]

variable {b : Builder}

theorem Builder.clean_shape {i : Nat} {t : Tree} (ht : b.clean.trees[i]? = some t) :
    ∃ s, b.shape[i]? = some s ∧ t.id = s.id ∧ t.parent = s.parent ∧ t.dependencyId = s.dependencyId := by
  rw [Builder.clean_trees] at ht
  obtain ⟨e, he, rfl⟩ := Option.map_eq_some_iff.mp ht
  refine ⟨{e.tree with dependencies := ⟨0, 0⟩}, ?_, rfl, rfl, rfl⟩
  rw [Builder.shape, List.getElem?_map, he, Option.map_some]

theorem Builder.mem_clean_folder (h : b.Aligned) {p : Nat} {d : DependencyID} (hd : b.Placed p d) : d ∈ b.clean.folder p := by
  have he := List.getElem?_eq_getElem (Builder.entries_lt_length hd.1)
  have hentry := hd.1
  rw [Builder.entries_eq h he] at hentry
  rw [Builder.clean_folder b he]
  exact List.mem_filter.mpr ⟨hentry, hd.2⟩

theorem Builder.WellFormed.clean_names (h : b.WellFormed lockfile) (hd : b.DistinctEntries lockfile) (i : Nat) :
    ((b.clean.folder i).map fun d => (lockfile.dependency d).nameHash).Nodup := by
  rcases he : b.list[i]? with _ | e
  · simp [Buffers.folder, Builder.clean_trees, he]
  · rw [Builder.clean_folder b he]
    refine List.Nodup.sublist ?_ (hd i)
    rw [Builder.entries_eq h.aligned he]
    exact List.filter_sublist.map _

theorem Builder.WellFormed.clean (h : b.WellFormed lockfile)
    (hd : b.DistinctEntries lockfile) (hne : b.list ≠ []) : b.clean.WellFormed lockfile := by
  have hparent : ∀ (i : Nat) (t : Tree), 0 < i → b.clean.trees[i]? = some t →
      ∃ p < i, t.parent = some p := by
    intro i t hi ht
    obtain ⟨s, hs, -, hp, -⟩ := Builder.clean_shape ht
    rcases h.linked i s hs with ⟨rfl, -, -⟩ | ⟨p, d, hlt, hsp, -, -⟩
    · omega
    · exact ⟨p, hlt, hp.trans hsp⟩
  exact
    { id := fun i t ht => by
        obtain ⟨s, hs, hid, -, -⟩ := Builder.clean_shape ht
        exact hid.trans (h.id i s hs)
      root := by
        have hlen : 0 < b.clean.trees.length := by
          rw [Builder.clean_length]
          exact List.length_pos_of_ne_nil hne
        have ht := List.getElem?_eq_getElem hlen
        obtain ⟨s, hs, -, hp, hdep⟩ := Builder.clean_shape ht
        rcases h.linked 0 s hs with ⟨-, hsp, hsd⟩ | ⟨p, d, hlt, -, -, -⟩
        · exact ⟨_, ht, hp.trans hsp, hdep.trans hsd⟩
        · omega
      parent_lt := hparent
      reachable := Buffers.reachable_of_parent_lt hparent
      contiguous := b.clean_contiguous
      names := h.clean_names hd
      resolved := fun d hdep => by
        rw [Builder.clean_hoistedDependencies] at hdep
        obtain ⟨e, -, hdep⟩ := List.mem_flatMap.mp hdep
        rw [Builder.clean_resolution]
        exact (List.mem_filter.mp hdep).2
      named := fun i t hi ht => by
        obtain ⟨s, hs, -, hp, hdep⟩ := Builder.clean_shape ht
        rcases h.linked i s hs with ⟨rfl, -, -⟩ | ⟨p, d, -, hsp, hsd, hplaced⟩
        · omega
        · exact ⟨p, d, hp.trans hsp, hdep.trans hsd, Builder.mem_clean_folder h.aligned hplaced⟩ }

theorem Builder.wellFormed_init : (Builder.init lockfile).WellFormed lockfile where
  id i t ht := by simp [Builder.shape, Builder.init] at ht
  linked i t ht := by simp [Builder.shape, Builder.init] at ht
  aligned := List.forall_mem_nil _
  resolutions := lockfile.resolutions_length
  entries_lt i d hd := by simp [Builder.entries, Builder.init] at hd
  items := List.forall_mem_nil _
  pending hash := List.forall_mem_nil _

theorem Builder.linked_root :
    (Builder.init lockfile).Linked (Builder.init lockfile).list.length
      ⟨(Builder.init lockfile).list.length, none, none, ⟨0, 0⟩⟩ :=
  .inl ⟨rfl, rfl, rfl⟩

/-! ### When there is no tree -/

namespace Builder
variable {b : Builder}

/-- Settling a dependency empties no folder. -/
theorem entries_settle_ne_nil (h : b.WellFormed lockfile) (hoistRootId : Option Nat) {depId : DependencyID}
    {r : HoistDependencyResult} (hr : b.Fits lockfile depId r) {i : Nat} (hi : b.entries i ≠ []) :
    (b.settle lockfile hoistRootId (b.resolution depId) depId r).entries i ≠ [] := by
  cases r with
  | dependencyLoop => exact hi
  | hoisted => exact hi
  | resolve res => exact entries_congr (resolvePending_list b ..) ▸ hi
  | resolveLater => exact hi
  | resolveReplace k entry =>
    cases hpkg : b.resolution depId with
    | none => exact hi
    | some pkg =>
      rw [entries_settle_replace]
      split_ifs
      · exact fun hmap => hi (List.map_eq_nil_iff.mp hmap)
      · exact hi
  | placement k bundled =>
    rw [entries_settle_placement h hr]
    split_ifs
    · exact List.append_ne_nil_of_right_ne_nil _ (List.cons_ne_nil _ _)
    · exact hi

/-- In an empty root folder everything that is not left out is placed. -/
theorem Place.root (h : b.WellFormed lockfile) (hlen : 0 < b.list.length) (hnil : b.entries 0 = [])
    {hoistRootId : Option Nat} {depId : DependencyID} {r : HoistDependencyResult}
    (place : b.Place lockfile 0 hoistRootId (b.resolution depId) depId r) :
    (b.settle lockfile hoistRootId (b.resolution depId) depId r).entries 0 ≠ [] := by
  have hfits := place.fits h hlen
  have hplaced : ∀ bundled, (b.settle lockfile hoistRootId (b.resolution depId) depId
      (.placement 0 bundled)).entries 0 ≠ [] := by
    intro bundled
    rw [entries_settle_placement h hlen, if_pos rfl]
    exact List.append_ne_nil_of_right_ne_nil _ (List.cons_ne_nil _ _)
  have habsurd : ∀ k entry, ¬ b.Walk lockfile 0 hoistRootId depId k (some entry) := by
    intro k entry walk
    obtain rfl := Nat.le_zero.mp (ancestor_le h.parent_lt walk.ancestor)
    simpa [hnil] using (find_some walk.answer).1
  cases place with
  | bundled _ => exact hplaced true
  | folder _ _ => exact hplaced false
  | free _ walk =>
    obtain rfl := Nat.le_zero.mp (ancestor_le h.parent_lt walk.ancestor)
    exact hplaced false
  | later _ walk => exact absurd walk (habsurd _ _)
  | replace walk => exact absurd walk (habsurd _ _)
  | resolve _ walk => exact absurd walk (habsurd _ _)
  | same walk => exact absurd walk (habsurd _ _)
  | own walk => exact absurd walk (habsurd _ _)
  | accepted walk => exact absurd walk (habsurd _ _)
  | conflict walk => exact absurd walk (habsurd _ _)

/-- The root folder is dropped only if every dependency of the root was left out. -/
theorem root_leftOut {method : BuilderMethod}
    (hb : processSubtree lockfile method none none none (init lockfile) = some (.ok b))
    (hnil : b.list = []) (d : DependencyID) (hd : d ∈ (lockfile.resolutionList 0).indices) :
    leftOut lockfile method 0 d ((init lockfile).resolution d) = true := by
  rcases processSubtree_cases hb with ⟨-, hlen⟩ | ⟨pkg, b₁, hpkg, hb₁, rfl⟩
  · have hzero := hlen 0 rfl
    rw [Slice.indices, hzero] at hd
    simp at hd
  obtain rfl := Option.some.inj hpkg
  obtain ⟨hfill, hleft⟩ := Run.foldlM_ok
    (fun done s => s.Filling lockfile 0 done ∧ (s.entries 0 ≠ [] ∨
      s.resolutions = lockfile.resolutions ∧
        ∀ d ∈ done, leftOut lockfile method 0 d ((init lockfile).resolution d) = true)) _
    (fun done d rest s s' hl hs hstep => by
      have hmem : d ∈ lockfile.sortedDependencies 0 := hl ▸ List.mem_append_right _ List.mem_cons_self
      refine ⟨hs.1.step (sortedDependencies_lt 0 hmem) hstep, ?_⟩
      have hwf := hs.1.wellFormed
      have hlen : 0 < s.list.length := hs.1.length ▸ Nat.one_pos
      rcases processDependency_cases hwf.parent_lt hlen hstep with
        ⟨hout, log, rfl⟩ | ⟨-, r, place, rfl⟩
      · obtain hne | ⟨hres, hdone⟩ := hs.2
        · exact .inl hne
        refine .inr ⟨hres, fun d' hd' => ?_⟩
        rcases List.mem_append.mp hd' with hd' | hd'
        · exact hdone d' hd'
        · obtain rfl := List.mem_singleton.mp hd'
          simpa only [resolution, hres, init] using hout
      · refine .inl ?_
        by_cases hnil : s.entries 0 = []
        · exact place.root hwf hlen hnil
        · exact entries_settle_ne_nil hwf _ (place.fits hwf hlen) hnil)
    ⟨filling_pushTree wellFormed_init linked_root, .inr ⟨rfl, List.forall_mem_nil _⟩⟩ hb₁
  rcases hleft with hne | ⟨-, hdone⟩
  · rcases popEmpty_cases hfill.wellFormed.aligned hfill.length with ⟨-, hpop⟩ | ⟨hnil', -⟩
    · have hlen := hfill.length
      change b₁.popEmpty 0 = b₁ at hpop
      change (b₁.popEmpty 0).list = [] at hnil
      rw [hpop] at hnil
      simp [hnil] at hlen
    · exact absurd hnil' hne
  · exact hdone d (mem_sortedDependencies.mpr hd)

theorem list_ne_nil_processItem (h : b.WellFormed lockfile) {method : BuilderMethod} {item : FillItem}
    {queue : List FillItem} {b' : Builder} (hq : b.queue = item :: queue) (hne : b.list ≠ [])
    (hb : processItem lockfile method b item queue = some (.ok b')) : b'.list ≠ [] := by
  rcases processSubtree_cases hb with ⟨rfl, -⟩ | ⟨pkg, b₁, -, hb₁, rfl⟩
  · exact hne
  have hfill := filling_foldlM (filling_pushTree (h.dequeue hq)
    (h.linked_item (hq ▸ List.mem_cons_self) queue)) hb₁
  have hlen : b₁.list.length = b.list.length + 1 := hfill.length
  have hpos := List.length_pos_of_ne_nil hne
  refine List.ne_nil_of_length_pos ?_
  rcases popEmpty_cases hfill.wellFormed.aligned hlen with ⟨-, hpop⟩ | ⟨-, hpop⟩
  · change 0 < (b₁.popEmpty b.list.length).list.length
    rw [hpop]
    omega
  · change 0 < (b₁.popEmpty b.list.length).list.length
    rw [hpop]
    simp only [List.length_dropLast]
    omega

end Builder

/-- **The buffers hoisting returns are well formed**, or empty: when every dependency of the
root package is left out there is no root tree either. -/
theorem hoist_wellFormed (hnames : lockfile.DistinctNames) {method : BuilderMethod} {fuel : Nat}
    {buffers : Buffers} (h : hoist lockfile method fuel = some (.ok buffers)) :
    buffers.WellFormed lockfile ∨
      buffers.trees = [] ∧ buffers.hoistedDependencies = [] ∧
        ∀ d ∈ (lockfile.resolutionList 0).indices,
          leftOut lockfile method 0 d ((Builder.init lockfile).resolution d) = true := by
  obtain ⟨b, ⟨hwf, hd, hleft⟩, -, rfl⟩ := hoist_ok
    (fun b => b.WellFormed lockfile ∧ b.DistinctEntries lockfile ∧ (b.list = [] →
      ∀ d ∈ (lockfile.resolutionList 0).indices,
        leftOut lockfile method 0 d ((Builder.init lockfile).resolution d) = true))
    (fun b hb => ⟨Builder.wellFormed_init.processSubtree Builder.linked_root hb,
      Builder.DistinctEntries.processSubtree hnames Builder.wellFormed_init
        (fun i => by simp [Builder.entries, Builder.init]) Builder.linked_root hb,
      Builder.root_leftOut hb⟩)
    (fun b item queue b' hq hb hb' => ⟨hb.1.processItem hq hb', hb.2.1.processItem hnames hb.1 hq hb',
      fun hnil => hb.2.2 (by
        by_contra hne
        exact Builder.list_ne_nil_processItem hb.1 hq hne hb' hnil)⟩) h
  by_cases hne : b.list = []
  · exact .inr ⟨by simp [Builder.clean, hne], by simp [Builder.clean, hne], hleft hne⟩
  · exact .inl (hwf.clean hd hne)

end Hoist

/-! ### Two small lockfiles -/

def prodDependency (name : UInt8) : Dependency :=
  ⟨[name], name.toUInt64, ⟨true, false, false, false, false, false⟩, .npm⟩

def npmPackage (name : UInt8) (off len : Nat) : Package := ⟨[name], .npm, ⟨off, len⟩, ⟨off, len⟩⟩

/-- The root needs `a` and a first version of `b`, `a` a second one, which needs `a`. -/
def nestedLockfile : Lockfile where
  packages := [⟨[], .root, ⟨0, 2⟩, ⟨0, 2⟩⟩, npmPackage 97 2 1, npmPackage 98 3 0, npmPackage 98 3 1]
  dependencies := [prodDependency 97, prodDependency 98, prodDependency 98, prodDependency 97]
  resolutions := [some 1, some 2, some 3, some 1]
  satisfies _ _ := false
  packages_nonempty := by decide
  resolutions_length := by decide
  resolutions_valid := by decide
  slices_valid := by decide

theorem nestedLockfile_distinctNames : nestedLockfile.DistinctNames := by
  unfold Lockfile.DistinctNames
  decide

def nestedBuffers : Buffers where
  trees := [⟨0, none, none, ⟨0, 2⟩⟩, ⟨1, some 0, some 0, ⟨2, 1⟩⟩]
  hoistedDependencies := [0, 1, 2]
  resolutions := [some 1, some 2, some 3, some 1]

theorem hoist_nestedLockfile : hoist nestedLockfile .resolvable 3 = some (.ok nestedBuffers) := rfl

theorem hoist_wellFormed_nested : nestedBuffers.WellFormed nestedLockfile ∨
    nestedBuffers.trees = [] ∧ nestedBuffers.hoistedDependencies = [] ∧
      ∀ d ∈ (nestedLockfile.resolutionList 0).indices,
        leftOut nestedLockfile .resolvable 0 d ((Builder.init nestedLockfile).resolution d) = true :=
  hoist_wellFormed nestedLockfile_distinctNames hoist_nestedLockfile

/-- A root package without dependencies. -/
def emptyLockfile : Lockfile where
  packages := [⟨[], .root, ⟨0, 0⟩, ⟨0, 0⟩⟩]
  dependencies := []
  resolutions := []
  satisfies _ _ := false
  packages_nonempty := by decide
  resolutions_length := by decide
  resolutions_valid := by decide
  slices_valid := by decide

theorem hoist_empty_no_root : emptyLockfile.DistinctNames ∧
    ∃ buffers, hoist emptyLockfile .resolvable 1 = some (.ok buffers) ∧ ¬ buffers.WellFormed emptyLockfile := by
  refine ⟨by unfold Lockfile.DistinctNames; decide, ⟨[], [], []⟩, rfl, ?_⟩
  rintro h
  obtain ⟨t, ht, -⟩ := h.root
  cases ht

end Funbun.Install
