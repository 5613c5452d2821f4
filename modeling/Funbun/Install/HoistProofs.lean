import Mathlib.Data.List.Nodup
import Funbun.Library.Ancestry
import Funbun.Install.Hoist

/-! The folders hoisting builds are well formed. -/
namespace Funbun.Install
open Library.Ancestry

/-! ### Runs -/

section Run
variable {α β σ : Type}

theorem Run.bind_ok {x : Run α} {f : α → Run β} {b : β} :
    (x >>= f) = some (.ok b) ↔ ∃ a, x = some (.ok a) ∧ f a = some (.ok b) := by
  change ExceptT.bind x f = some (.ok b) ↔ _
  rcases x with _ | e | a
  · constructor
    · rintro ⟨⟩
    · rintro ⟨a, ⟨⟩, _⟩
  · constructor
    · rintro ⟨⟩
    · rintro ⟨a, ⟨⟩, _⟩
  · constructor
    · intro h
      exact ⟨a, rfl, h⟩
    · rintro ⟨a', ⟨⟩, h⟩
      exact h

theorem Run.pure_ok {a b : α} : (pure a : Run α) = some (.ok b) ↔ a = b := by
  constructor
  · rintro ⟨⟩
    rfl
  · rintro rfl
    rfl

/-- What a loop keeps, given what it has been through. -/
theorem Run.foldlM_ok {f : σ → α → Run σ} (I : List α → σ → Prop) (l : List α)
    (step : ∀ done a rest s s', l = done ++ a :: rest → I done s → f s a = some (.ok s') →
      I (done ++ [a]) s')
    {s s' : σ} (hs : I [] s) (h : l.foldlM f s = some (.ok s')) : I l s' := by
  suffices ∀ rest done s, l = done ++ rest → I done s → rest.foldlM f s = some (.ok s') → I l s' from
    this l [] s rfl hs h
  intro rest
  induction rest with
  | nil =>
    intro done s hl hs h
    obtain rfl := Run.pure_ok.mp h
    rw [hl, List.append_nil]
    exact hs
  | cons a rest ih =>
    intro done s hl hs h
    rw [List.foldlM_cons] at h
    obtain ⟨s₁, h₁, h⟩ := Run.bind_ok.mp h
    refine ih (done ++ [a]) s₁ ?_ (step done a rest s s₁ hl hs h₁) h
    rw [hl, List.append_assoc, List.singleton_append]

end Run

/-! ### What the operations change -/

namespace Builder
variable (b : Builder)

theorem resolution_setResolution {id : DependencyID} (hid : id < b.resolutions.length) (pkg : PackageID)
    (d : DependencyID) : (b.setResolution id pkg).resolution d = if d = id then some pkg else b.resolution d := by
  by_cases hd : d = id
  · simp [resolution, setResolution, hd, List.getElem?_set_self hid]
  · simp [resolution, setResolution, hd, List.getElem?_set_ne (Ne.symm hd)]

/-- The dependencies a resolution is written to, one after the other. -/
theorem foldl_setResolution (pkg : PackageID) (ids : List DependencyID) (b : Builder) :
    ids.foldl (fun b id => b.setResolution id pkg) b =
      {b with resolutions := ids.foldl (fun r id => r.set id (some pkg)) b.resolutions} := by
  induction ids generalizing b with
  | nil => rfl
  | cons id ids ih => rw [List.foldl_cons, ih]; rfl

theorem resolution_foldl (pkg : PackageID) (ids : List DependencyID) (b : Builder)
    (hids : ∀ id ∈ ids, id < b.resolutions.length) (d : DependencyID) :
    (ids.foldl (fun b id => b.setResolution id pkg) b).resolution d =
      if d ∈ ids then some pkg else b.resolution d := by
  induction ids generalizing b with
  | nil => simp
  | cons id ids ih =>
    have hlen : (b.setResolution id pkg).resolutions.length = b.resolutions.length := by
      simp [setResolution]
    rw [List.foldl_cons, ih _ (fun i hi => hlen ▸ hids i (List.mem_cons_of_mem _ hi)),
      resolution_setResolution b (hids id List.mem_cons_self)]
    by_cases hd : d ∈ ids
    · simp [hd]
    · simp [hd]

@[simp] theorem resolvePending_list (hash : PackageNameHash) (id : DependencyID) (pkg : PackageID) :
    (b.resolvePending hash id pkg).list = b.list := by
  simp only [resolvePending, foldl_setResolution]
  rfl

@[simp] theorem resolvePending_queue (hash : PackageNameHash) (id : DependencyID) (pkg : PackageID) :
    (b.resolvePending hash id pkg).queue = b.queue := by
  simp only [resolvePending, foldl_setResolution]
  rfl

@[simp] theorem resolvePending_pending (hash : PackageNameHash) (id : DependencyID) (pkg : PackageID) :
    (b.resolvePending hash id pkg).pendingOptionalPeers =
      Function.update b.pendingOptionalPeers hash [] := by
  simp only [resolvePending, foldl_setResolution]
  rfl

theorem resolution_resolvePending {hash : PackageNameHash} {id : DependencyID}
    (hid : id < b.resolutions.length)
    (hpending : ∀ p ∈ b.pendingOptionalPeers hash, p < b.resolutions.length) (pkg : PackageID)
    (d : DependencyID) : (b.resolvePending hash id pkg).resolution d =
      if d = id ∨ d ∈ b.pendingOptionalPeers hash then some pkg else b.resolution d := by
  have hfold := resolution_foldl pkg (b.pendingOptionalPeers hash) (b.setResolution id pkg)
    (by simpa [setResolution] using hpending) d
  rw [resolution_setResolution b hid] at hfold
  refine Eq.trans (show _ = _ from rfl) (hfold.trans ?_)
  by_cases hd : d ∈ b.pendingOptionalPeers hash
  · simp [hd]
  · simp [hd]

/-- The trees, without the slices that `clean` recomputes. -/
def shape : List Tree := b.list.map fun e => {e.tree with dependencies := ⟨0, 0⟩}

theorem length_shape : b.shape.length = b.list.length := List.length_map _

theorem parent_eq_shape (i : Nat) : b.parent i = (b.shape[i]?).bind (·.parent) := by
  simp only [parent, shape, List.getElem?_map]
  cases b.list[i]? <;> rfl

variable {b : Builder}

theorem shape_modify {t : Nat} {f : BuilderEntry → BuilderEntry}
    (hf : ∀ e, {(f e).tree with dependencies := ⟨0, 0⟩} = {e.tree with dependencies := ⟨0, 0⟩}) :
    {b with list := b.list.modify t f}.shape = b.shape := by
  refine List.ext_getElem? fun i => ?_
  simp only [shape, List.getElem?_map, List.getElem?_modify]
  rcases b.list[i]? with _ | e
  · rfl
  · by_cases hi : t = i
    · simp [hi, hf]
    · simp [hi]

@[simp] theorem shape_pushEntry (t : Nat) (d : DependencyID) : (b.pushEntry t d).shape = b.shape :=
  shape_modify fun _ => rfl

@[simp] theorem shape_replaceEntry (t : Nat) (old new : DependencyID) :
    (b.replaceEntry t old new).shape = b.shape :=
  shape_modify fun _ => rfl

theorem shape_congr {b b' : Builder} (h : b.list = b'.list) : b.shape = b'.shape := by
  rw [shape, shape, h]

theorem entries_congr {b b' : Builder} (h : b.list = b'.list) : b.entries = b'.entries := by
  funext i
  rw [entries, entries, h]

/-- The slices of the trees agree with the lists of their entries. -/
def Aligned : Prop := ∀ e ∈ b.list, e.tree.dependencies = ⟨0, e.dependencies.length⟩

theorem Slice.get_all {α : Type} (l : List α) : (Slice.mk 0 l.length).get l = l := by
  simp [Slice.get]

theorem entries_eq (h : b.Aligned) {i : Nat} {e : BuilderEntry} (he : b.list[i]? = some e) :
    b.entries i = e.dependencies := by
  simp only [entries, he, h e (List.mem_of_getElem? he), Slice.get_all]

theorem entries_lt_length {i : Nat} {d : DependencyID} (h : d ∈ b.entries i) :
    i < b.list.length := by
  by_contra hge
  simp [entries, List.getElem?_eq_none (Nat.le_of_not_lt hge)] at h

theorem Aligned.modify (h : b.Aligned) (t : Nat) {f : BuilderEntry → BuilderEntry}
    (hf : ∀ e, e.tree.dependencies = ⟨0, e.dependencies.length⟩ →
      (f e).tree.dependencies = ⟨0, (f e).dependencies.length⟩) :
    {b with list := b.list.modify t f}.Aligned := by
  intro e he
  obtain ⟨i, hi⟩ := List.getElem?_of_mem he
  rw [List.getElem?_modify, Option.map_eq_map, Option.map_eq_some_iff] at hi
  obtain ⟨e₀, he₀, rfl⟩ := hi
  have h₀ := h e₀ (List.mem_of_getElem? he₀)
  by_cases hti : t = i
  · simpa only [if_pos hti] using hf e₀ h₀
  · simpa only [if_neg hti] using h₀

theorem Aligned.pushEntry (h : b.Aligned) (t : Nat) (d : DependencyID) :
    (b.pushEntry t d).Aligned :=
  h.modify t fun e he => by simp [he]

theorem Aligned.replaceEntry (h : b.Aligned) (t : Nat) (old new : DependencyID) :
    (b.replaceEntry t old new).Aligned :=
  h.modify t fun e he => by simp [he]

theorem entries_pushEntry (h : b.Aligned) {t : Nat} (ht : t < b.list.length) (d : DependencyID) (i : Nat) :
    (b.pushEntry t d).entries i = if i = t then b.entries t ++ [d] else b.entries i := by
  by_cases hi : i = t
  · subst hi
    have hlist := List.getElem?_eq_getElem ht
    have hpush : (b.pushEntry i d).list[i]? = some
        {b.list[i] with
          dependencies := b.list[i].dependencies ++ [d]
          tree := {b.list[i].tree with dependencies.len := b.list[i].tree.dependencies.len + 1}} := by
      simp [Builder.pushEntry, hlist]
    rw [if_pos rfl, entries_eq (h.pushEntry i d) hpush, entries_eq h hlist]
  · simp [entries, Builder.pushEntry, hi, Ne.symm hi]

theorem entries_replaceEntry (t : Nat) (old new : DependencyID) (i : Nat) :
    (b.replaceEntry t old new).entries i =
      if i = t then (b.entries i).map fun d => if d = old then new else d else b.entries i := by
  by_cases hi : i = t
  · subst hi
    rcases hlist : b.list[i]? with _ | e
    · simp [entries, Builder.replaceEntry, hlist]
    · simp [entries, Builder.replaceEntry, hlist, Slice.get, List.map_take, List.map_drop]
  · simp [entries, Builder.replaceEntry, hi, Ne.symm hi]

end Builder
section Walk
variable (lockfile : Lockfile) (b : Builder) (nextId : Nat) (hoistRootId : Option Nat)
  (pkgId : Option PackageID) (depId : DependencyID)

/-- The walk of `hoist_dependency`: where it ends and the entry of that name it meets. -/
def Builder.Walk (k : Nat) (entry : Option DependencyID) : Prop :=
  Lookup b.parent hoistRootId (b.find lockfile · (lockfile.dependency depId).nameHash) nextId k entry

/-- A peer dependency may be met by another package than the one it resolved to. -/
def accepts (entry : DependencyID) (resId : PackageID) : Bool :=
  (lockfile.dependency depId).behavior.peer &&
    ((lockfile.dependency depId).versionTag == .npm && lockfile.resolutionTag resId == .npm &&
        lockfile.satisfies depId resId ||
      lockfile.isWorkspaceRootDependency entry)

/-- What can become of a dependency of the package whose folder is `nextId`. -/
inductive Builder.Place : HoistDependencyResult → Prop
  | bundled (h : (lockfile.dependency depId).behavior.bundled = true) : Place (.placement nextId true)
  | folder {pkg : PackageID} (hp : pkgId = some pkg) (h : lockfile.resolutionTag pkg = .folder) :
      Place (.placement nextId false)
  | free {k : Nat} (hb : (lockfile.dependency depId).behavior.bundled = false)
      (walk : b.Walk lockfile nextId hoistRootId depId k none) : Place (.placement k false)
  | later {k : Nat} {entry : DependencyID} (hb : (lockfile.dependency depId).behavior.bundled = false)
      (walk : b.Walk lockfile nextId hoistRootId depId k (some entry))
      (he : b.resolution entry = none) (hp : pkgId = none) : Place .resolveLater
  | replace {k : Nat} {entry : DependencyID} {pkg : PackageID}
      (walk : b.Walk lockfile nextId hoistRootId depId k (some entry))
      (he : b.resolution entry = none) (hp : pkgId = some pkg) : Place (.resolveReplace k entry)
  | resolve {k : Nat} {entry : DependencyID} {res : PackageID}
      (hb : (lockfile.dependency depId).behavior.bundled = false)
      (walk : b.Walk lockfile nextId hoistRootId depId k (some entry))
      (he : b.resolution entry = some res) (hp : pkgId = none) : Place (.resolve res)
  | same {k : Nat} {entry : DependencyID} {pkg : PackageID}
      (walk : b.Walk lockfile nextId hoistRootId depId k (some entry))
      (he : b.resolution entry = some pkg) (hp : pkgId = some pkg) : Place .hoisted
  /-- The new folder has the name. -/
  | own {entry : DependencyID} {result : HoistDependencyResult}
      (walk : b.Walk lockfile nextId hoistRootId depId nextId (some entry))
      (hr : result = .hoisted ∨ result = .dependencyLoop) : Place result
  | accepted {k : Nat} {entry : DependencyID} {res pkg : PackageID}
      (walk : b.Walk lockfile nextId hoistRootId depId k (some entry))
      (he : b.resolution entry = some res) (hp : pkgId = some pkg) (h : accepts lockfile depId entry res = true) : Place .hoisted
  | conflict {k : Nat} {entry : DependencyID} {res pkg : PackageID}
      (walk : b.Walk lockfile nextId hoistRootId depId k (some entry)) (hk : k ≠ nextId)
      (he : b.resolution entry = some res) (hp : pkgId = some pkg) (hne : res ≠ pkg)
      (h : accepts lockfile depId entry res = false) : Place (.placement nextId false)

variable {lockfile b nextId hoistRootId pkgId depId}

variable {k : Nat} {entry : DependencyID} {r : HoistDependencyResult}

theorem meetEntry_some {asDefined : Bool} {res pkg : PackageID}
    (he : b.resolution entry = some res) : meetEntry lockfile asDefined b k (some pkg) depId entry =
      if res = pkg then .ok .hoisted
      else if asDefined &&
          (lockfile.dependency entry).behavior.dev != (lockfile.dependency depId).behavior.dev then
        .ok .hoisted
      else if accepts lockfile depId entry res then .ok .hoisted
      else if asDefined && !(lockfile.dependency entry).behavior.peer then .error .dependencyLoop
      else .ok .dependencyLoop := by
  simp only [meetEntry, he, accepts]
  by_cases hpeer : (lockfile.dependency depId).behavior.peer
  · by_cases hroot : lockfile.isWorkspaceRootDependency entry
    · simp [hpeer, hroot]
    · simp [hpeer, hroot]
  · simp [hpeer]

/-- Above the new folder a conflict is only reported. -/
theorem meetEntry_above (pkgId : Option PackageID) (hb : (lockfile.dependency depId).behavior.bundled = false)
    (walk : b.Walk lockfile nextId hoistRootId depId k (some entry)) (hk : k ≠ nextId) :
    ∃ r, meetEntry lockfile false b k pkgId depId entry = .ok r ∧
      b.Place lockfile nextId hoistRootId pkgId depId
        (if r = .dependencyLoop then .placement nextId false else r) := by
  cases he : b.resolution entry with
  | none =>
    cases pkgId with
    | none => exact ⟨.resolveLater, by simp only [meetEntry, he], .later hb walk he rfl⟩
    | some pkg => exact ⟨.resolveReplace k entry, by simp only [meetEntry, he], .replace walk he rfl⟩
  | some res =>
    cases pkgId with
    | none => exact ⟨.resolve res, by simp only [meetEntry, he], .resolve hb walk he rfl⟩
    | some pkg =>
      rw [meetEntry_some he]
      by_cases hres : res = pkg
      · exact ⟨.hoisted, by simp [hres], .same walk he (by rw [hres])⟩
      cases hacc : accepts lockfile depId entry res with
      | true => exact ⟨.hoisted, by simp [hres], .accepted walk he rfl hacc⟩
      | false => exact ⟨.dependencyLoop, by simp [hres], .conflict walk hk he rfl hres hacc⟩

/-- In the new folder itself a conflict is an error, unless the entry is a peer. -/
theorem meetEntry_own (hb : (lockfile.dependency depId).behavior.bundled = false)
    (walk : b.Walk lockfile nextId hoistRootId depId nextId (some entry))
    (h : meetEntry lockfile true b nextId pkgId depId entry = .ok r) :
    b.Place lockfile nextId hoistRootId pkgId depId r := by
  cases he : b.resolution entry with
  | none =>
    cases pkgId with
    | none =>
      simp only [meetEntry, he, Except.ok.injEq] at h
      exact h ▸ .later hb walk he rfl
    | some pkg =>
      simp only [meetEntry, he, Except.ok.injEq] at h
      exact h ▸ .replace walk he rfl
  | some res =>
    cases pkgId with
    | none =>
      simp only [meetEntry, he, Except.ok.injEq] at h
      exact h ▸ .resolve hb walk he rfl
    | some pkg =>
      rw [meetEntry_some he] at h
      refine .own walk ?_
      split_ifs at h <;> simp_all

/-- The walk from above the new folder goes up to the first entry of that name. -/
theorem hoistDependency_above {i k : Nat} {entry : Option DependencyID}
    (lt : ∀ i j, b.parent i = some j → j < i)
    (walk : Lookup b.parent hoistRootId (b.find lockfile · (lockfile.dependency depId).nameHash) i k
      entry) :
    ∀ fuel, i < fuel → hoistDependency lockfile b hoistRootId pkgId depId fuel false i =
      Run.of (match entry with
        | none => .ok (.placement k false)
        | some e => meetEntry lockfile false b k pkgId depId e) := by
  induction walk with
  | found h =>
    rintro (_ | fuel) hfuel
    · omega
    · simp only [hoistDependency, h]
  | missing h stop =>
    rintro (_ | fuel) hfuel
    · omega
    rcases stop with stop | stop
    · simp only [hoistDependency, h, stop]
      rfl
    · simp only [hoistDependency, h, if_pos stop]
      split <;> rfl
  | up h go link rest ih =>
    rintro (_ | fuel) hfuel
    · omega
    have hlt := lt _ _ link
    simp only [hoistDependency, h, link, if_neg go, Bool.false_and, Bool.false_eq_true, if_false,
      bind_pure]
    exact ih fuel (by omega)

/-- Everything `hoist_dependency` can answer. -/
theorem hoistDependency_place {fuel : Nat} (hb : (lockfile.dependency depId).behavior.bundled = false)
    (lt : ∀ i j, b.parent i = some j → j < i) (hfuel : nextId < fuel)
    (h : hoistDependency lockfile b hoistRootId pkgId depId fuel true nextId = some (.ok r)) :
    b.Place lockfile nextId hoistRootId pkgId depId r := by
  obtain ⟨k, entry, walk⟩ := exists_lookup lt hoistRootId
    (b.find lockfile · (lockfile.dependency depId).nameHash) nextId
  obtain _ | fuel := fuel
  · omega
  have hwalk := walk
  cases walk with
  | found hfind =>
    simp only [hoistDependency, hfind] at h
    exact meetEntry_own hb hwalk (Option.some.inj h)
  | missing hfind stop =>
    have hr : r = .placement nextId false := by
      rcases stop with stop | stop
      · simp only [hoistDependency, hfind, stop] at h
        exact (Run.pure_ok.mp h).symm
      · simp only [hoistDependency, hfind, if_pos stop] at h
        split at h <;> exact (Run.pure_ok.mp h).symm
    exact hr ▸ .free hb hwalk
  | up hfind go link rest =>
    have hlt := lt _ _ link
    simp only [hoistDependency, hfind, link, if_neg go,
      hoistDependency_above lt rest fuel (by omega)] at h
    cases entry with
    | none =>
      obtain rfl := Run.pure_ok.mp h
      exact .free hb hwalk
    | some e =>
      have hk : k ≠ nextId := by
        have := ancestor_le lt rest.ancestor
        omega
      obtain ⟨r', hr', place⟩ := meetEntry_above pkgId hb hwalk hk
      simp only [hr'] at h
      obtain ⟨r'', ⟨⟩, h⟩ := Run.bind_ok.mp h
      split_ifs at place with hloop
      · rw [if_pos (by simp [hloop])] at h
        exact Run.pure_ok.mp h ▸ place
      · rw [if_neg (by simp [hloop])] at h
        exact Run.pure_ok.mp h ▸ place

theorem findPlace_place (lt : ∀ i j, b.parent i = some j → j < i) (hnext : nextId < b.list.length)
    (h : findPlace lockfile b nextId hoistRootId pkgId depId = some (.ok r)) :
    b.Place lockfile nextId hoistRootId pkgId depId r := by
  unfold findPlace at h
  split_ifs at h with hbundled hfolder
  · exact Run.pure_ok.mp h ▸ .bundled hbundled
  · obtain _ | pkg := pkgId
    · simp at hfolder
    · exact Run.pure_ok.mp h ▸ .folder rfl (by simpa using hfolder)
  · exact hoistDependency_place (Bool.eq_false_of_not_eq_true hbundled) lt hnext h

/-- A dependency the loop leaves out: filtered, under a name that could escape its folder,
or unresolvable. -/
def leftOut (lockfile : Lockfile) (method : BuilderMethod) (parentPkgId : PackageID) (depId : DependencyID)
    (resolution : Option PackageID) : Bool :=
  let dependency := lockfile.dependency depId
  method.skips lockfile depId parentPkgId resolution ||
    (!dependency.name.isEmpty && !isSafeInstallFolderName dependency.name) ||
    (!dependency.behavior.bundled && resolution.isNone && !dependency.behavior.isOptionalPeer)

/-- One dependency is left out, or found a place and settled there. -/
theorem processDependency_cases {method : BuilderMethod} {parentPkgId : PackageID} {b' : Builder}
    (lt : ∀ i j, b.parent i = some j → j < i) (hnext : nextId < b.list.length)
    (h : processDependency lockfile method parentPkgId nextId hoistRootId b depId = some (.ok b')) :
    (leftOut lockfile method parentPkgId depId (b.resolution depId) = true ∧
      ∃ log, b' = {b with log := log}) ∨
    leftOut lockfile method parentPkgId depId (b.resolution depId) = false ∧
    ∃ r, b.Place lockfile nextId hoistRootId (b.resolution depId) depId r ∧
      b' = b.settle lockfile hoistRootId (b.resolution depId) depId r := by
  simp only [processDependency] at h
  split_ifs at h with hskip hname hnone
  · exact .inl ⟨by simp only [leftOut, hskip, Bool.true_or], b.log, (Run.pure_ok.mp h).symm⟩
  · exact .inl ⟨by simp only [leftOut, hname, Bool.or_true, Bool.true_or], _, (Run.pure_ok.mp h).symm⟩
  · exact .inl ⟨by simp only [leftOut, hnone, Bool.or_true], b.log, (Run.pure_ok.mp h).symm⟩
  · obtain ⟨r, hr, h⟩ := Run.bind_ok.mp h
    rw [Bool.not_eq_true] at hskip hname hnone
    exact .inr ⟨by simp only [leftOut, hskip, hname, hnone, Bool.or_false], r,
      findPlace_place lt hnext hr, (Run.pure_ok.mp h).symm⟩

end Walk

/-! ### Well-formed folders -/

section WellFormed
variable {lockfile : Lockfile}

/-- A resolved entry of a folder. -/
def Builder.Placed (b : Builder) (t : Nat) (d : DependencyID) : Prop :=
  d ∈ b.entries t ∧ (b.resolution d).isSome

/-- Every tree but the root is inside an earlier one, made for an entry of it. -/
def Builder.Linked (b : Builder) (i : Nat) (t : Tree) : Prop :=
  (i = 0 ∧ t.parent = none ∧ t.dependencyId = none) ∨
    ∃ p d, p < i ∧ t.parent = some p ∧ t.dependencyId = some d ∧ b.Placed p d

structure Builder.WellFormed (lockfile : Lockfile) (b : Builder) : Prop where
  id : ∀ (i : Nat) (t : Tree), b.shape[i]? = some t → t.id = i
  linked : ∀ (i : Nat) (t : Tree), b.shape[i]? = some t → b.Linked i t
  aligned : b.Aligned
  resolutions : b.resolutions.length = lockfile.dependencies.length
  entries_lt : ∀ i, ∀ d ∈ b.entries i, d < b.resolutions.length
  items : ∀ item ∈ b.queue, b.Placed item.treeId item.dependencyId
  pending : ∀ hash, ∀ d ∈ b.pendingOptionalPeers hash, d < b.resolutions.length ∧
    (lockfile.dependency d).nameHash = hash ∧ b.resolution d = none

namespace Builder
variable {b : Builder}

theorem WellFormed.parent_lt (h : b.WellFormed lockfile) (i j : Nat) (hp : b.parent i = some j) :
    j < i := by
  rw [parent_eq_shape] at hp
  obtain ⟨t, ht, hp⟩ := Option.bind_eq_some_iff.mp hp
  rcases h.linked i t ht with ⟨-, hnone, -⟩ | ⟨p, d, hlt, hsome, -, -⟩
  · rw [hp] at hnone
    cases hnone
  · rw [hp] at hsome
    cases hsome
    exact hlt

variable {b' : Builder} {hash : PackageNameHash} {d id : DependencyID}

/-- Placing and resolving more keeps the links. -/
theorem WellFormed.linked_of (h : b.WellFormed lockfile) (hshape : b'.shape = b.shape)
    (hplaced : ∀ t d, b.Placed t d → b'.Placed t d) (i : Nat) (t : Tree) (ht : b'.shape[i]? = some t) :
    b'.Linked i t := by
  rw [hshape] at ht
  rcases h.linked i t ht with hroot | ⟨p, d, hlt, hparent, hdep, hp⟩
  · exact .inl hroot
  · exact .inr ⟨p, d, hlt, hparent, hdep, hplaced p d hp⟩

theorem find_some {i : Nat} (h : b.find lockfile i hash = some d) :
    d ∈ b.entries i ∧ (lockfile.dependency d).nameHash = hash :=
  ⟨List.mem_of_find?_eq_some h, by simpa using List.find?_some h⟩

theorem find_none {i : Nat} :
    b.find lockfile i hash = none ↔ ∀ d ∈ b.entries i, (lockfile.dependency d).nameHash ≠ hash := by
  simp [find]

@[simp] theorem enqueue_list (pkg : Option PackageID) (item : FillItem) :
    (b.enqueue lockfile pkg item).list = b.list := by
  unfold enqueue
  split
  · rfl
  · split <;> rfl

@[simp] theorem enqueue_resolutions (pkg : Option PackageID) (item : FillItem) :
    (b.enqueue lockfile pkg item).resolutions = b.resolutions := by
  unfold enqueue
  split
  · rfl
  · split <;> rfl

@[simp] theorem enqueue_pending (pkg : Option PackageID) (item : FillItem) :
    (b.enqueue lockfile pkg item).pendingOptionalPeers = b.pendingOptionalPeers := by
  unfold enqueue
  split
  · rfl
  · split <;> rfl

theorem enqueue_queue (lockfile : Lockfile) (b : Builder) (pkg : Option PackageID) (item : FillItem) :
    (b.enqueue lockfile pkg item).queue = b.queue ∨
      (∃ p, pkg = some p) ∧ (b.enqueue lockfile pkg item).queue = b.queue ++ [item] := by
  unfold enqueue
  split
  · exact .inl rfl
  · split
    · exact .inr ⟨⟨_, rfl⟩, rfl⟩
    · exact .inl rfl

theorem WellFormed.resolution_mono (h : b.WellFormed lockfile)
    (hid : id < b.resolutions.length) (hnone : b.resolution id = none) {pkg p : PackageID} (hd : b.resolution d = some p) :
    (b.resolvePending hash id pkg).resolution d = some p := by
  rw [resolution_resolvePending b hid fun d hd => (h.pending hash d hd).1, if_neg, hd]
  rintro (rfl | hpending)
  · rw [hnone] at hd
    cases hd
  · rw [(h.pending hash d hpending).2.2] at hd
    cases hd

/-- Resolving a name leaves no dependency of that name pending. -/
theorem WellFormed.pending_resolvePending (h : b.WellFormed lockfile) (hid : id < b.resolutions.length)
    (hname : (lockfile.dependency id).nameHash = hash) (pkg : PackageID) (hash' : PackageNameHash)
    (d : DependencyID) (hd : d ∈ (b.resolvePending hash id pkg).pendingOptionalPeers hash') :
    d < b.resolutions.length ∧ (lockfile.dependency d).nameHash = hash' ∧
      (b.resolvePending hash id pkg).resolution d = none := by
  rw [resolvePending_pending] at hd
  by_cases hhash : hash' = hash
  · simp [hhash] at hd
  rw [Function.update_of_ne hhash] at hd
  obtain ⟨hlt, hdname, hnone⟩ := h.pending hash' d hd
  refine ⟨hlt, hdname, ?_⟩
  rw [resolution_resolvePending b hid fun d hd => (h.pending hash d hd).1, if_neg, hnone]
  rintro (rfl | hpending)
  · exact hhash (hdname.symm.trans hname)
  · exact hhash (hdname.symm.trans (h.pending hash d hpending).2.1)

@[simp] theorem length_resolvePending (hash : PackageNameHash) (id : DependencyID) (pkg : PackageID) :
    (b.resolvePending hash id pkg).resolutions.length = b.resolutions.length := by
  have hfold : ∀ (ids : List DependencyID) (r : List (Option PackageID)),
      (ids.foldl (fun r id => r.set id (some pkg)) r).length = r.length := by
    intro ids
    induction ids with
    | nil => intro r; rfl
    | cons id ids ih => intro r; rw [List.foldl_cons, ih, List.length_set]
  simp only [resolvePending, foldl_setResolution, hfold]
  exact List.length_set

/-- One dependency settled: the folders stay, placed entries stay placed. -/
theorem WellFormed.frame (h : b.WellFormed lockfile) (hshape : b'.shape = b.shape)
    (haligned : b'.Aligned) (hlength : b'.resolutions.length = b.resolutions.length)
    (hplaced : ∀ t d, b.Placed t d → b'.Placed t d) (hlt : ∀ i, ∀ d ∈ b'.entries i, d < b.resolutions.length)
    (hitems : ∀ item ∈ b'.queue, item ∈ b.queue ∨ b'.Placed item.treeId item.dependencyId)
    (hpending : ∀ hash, ∀ d ∈ b'.pendingOptionalPeers hash, d < b.resolutions.length ∧
      (lockfile.dependency d).nameHash = hash ∧ b'.resolution d = none) :
    b'.WellFormed lockfile where
  id i t ht := h.id i t (hshape ▸ ht)
  linked := h.linked_of hshape hplaced
  aligned := haligned
  resolutions := hlength.trans h.resolutions
  entries_lt i d hd := hlength ▸ hlt i d hd
  items item hitem := (hitems item hitem).elim (fun hold => hplaced _ _ (h.items item hold)) fun hnew => hnew
  pending hash d hd := hlength ▸ hpending hash d hd

theorem Placed.congr (hlist : b'.list = b.list) (hres : b'.resolutions = b.resolutions)
    {t : Nat} (h : b.Placed t d) : b'.Placed t d := by
  unfold Placed resolution at *
  rw [entries_congr hlist, hres]
  exact h

theorem WellFormed.enqueue (h : b.WellFormed lockfile) (pkg : Option PackageID) (item : FillItem)
    (hitem : b.Placed item.treeId item.dependencyId) : (b.enqueue lockfile pkg item).WellFormed lockfile := by
  have hplaced : ∀ t d, b.Placed t d → (b.enqueue lockfile pkg item).Placed t d := fun t d hd =>
    hd.congr (enqueue_list ..) (enqueue_resolutions ..)
  refine h.frame (shape_congr (enqueue_list ..)) (fun e he => h.aligned e (enqueue_list (b := b) .. ▸ he))
    (by rw [enqueue_resolutions]) hplaced (fun i d hd => h.entries_lt i d ?_) ?_ ?_
  · rwa [entries_congr (enqueue_list ..)] at hd
  · intro i hi
    rcases enqueue_queue lockfile b pkg item with hq | ⟨-, hq⟩
    · exact .inl (hq ▸ hi)
    · rcases List.mem_append.mp (hq ▸ hi) with hi | hi
      · exact .inl hi
      · exact .inr (List.mem_singleton.mp hi ▸ hplaced _ _ hitem)
  · intro hash d hd
    rw [enqueue_pending] at hd
    unfold resolution
    rw [enqueue_resolutions]
    exact h.pending hash d hd

theorem WellFormed.resolvePending (h : b.WellFormed lockfile)
    (hid : id < b.resolutions.length) (hnone : b.resolution id = none) (pkg : PackageID) :
    (b.resolvePending (lockfile.dependency id).nameHash id pkg).WellFormed lockfile := by
  have hlist : (b.resolvePending (lockfile.dependency id).nameHash id pkg).list = b.list :=
    resolvePending_list ..
  refine h.frame (shape_congr hlist) (fun e he => h.aligned e (hlist ▸ he)) (length_resolvePending ..) ?_
    (fun i d hd => h.entries_lt i d (entries_congr hlist ▸ hd))
    (fun item hitem => .inl (resolvePending_queue b .. ▸ hitem)) (h.pending_resolvePending hid rfl pkg)
  rintro t d ⟨hd, hsome⟩
  obtain ⟨p, hp⟩ := Option.isSome_iff_exists.mp hsome
  exact ⟨entries_congr hlist ▸ hd, by rw [h.resolution_mono hid hnone hp]; rfl⟩

theorem WellFormed.resolveLater (h : b.WellFormed lockfile) (hid : id < b.resolutions.length) (hnone : b.resolution id = none) :
    (b.resolveLater (lockfile.dependency id).nameHash id).WellFormed lockfile := by
  refine h.frame rfl h.aligned rfl (fun t d hd => hd) h.entries_lt (fun item hitem => .inl hitem) ?_
  intro hash d hd
  simp only [Builder.resolveLater] at hd
  by_cases hhash : hash = (lockfile.dependency id).nameHash
  · subst hhash
    rw [Function.update_self] at hd
    split_ifs at hd
    · exact h.pending _ d hd
    · rcases List.mem_append.mp hd with hd | hd
      · exact h.pending _ d hd
      · rw [List.mem_singleton.mp hd]
        exact ⟨hid, rfl, hnone⟩
  · rw [Function.update_of_ne hhash] at hd
    exact h.pending _ d hd

theorem WellFormed.pushEntry (h : b.WellFormed lockfile) {k : Nat} (hk : k < b.list.length)
    (hd : d < b.resolutions.length) : (b.pushEntry k d).WellFormed lockfile := by
  refine h.frame (shape_pushEntry ..) (h.aligned.pushEntry k d) rfl ?_ ?_ (fun item hitem => .inl hitem)
    h.pending
  · rintro t d' ⟨hd', hsome⟩
    refine ⟨?_, hsome⟩
    rw [entries_pushEntry h.aligned hk]
    split_ifs with ht
    · exact List.mem_append_left _ (ht ▸ hd')
    · exact hd'
  · intro i d' hd'
    rw [entries_pushEntry h.aligned hk] at hd'
    split_ifs at hd'
    · rcases List.mem_append.mp hd' with hd' | hd'
      · exact h.entries_lt k d' hd'
      · exact List.mem_singleton.mp hd' ▸ hd
    · exact h.entries_lt i d' hd'

/-- An unresolved entry resolved and replaced by another dependency of its name. -/
def replace (b : Builder) (hash : PackageNameHash) (k : Nat) (old new : DependencyID) (pkg : PackageID) :
    Builder :=
  (b.resolvePending hash old pkg).replaceEntry k old new

theorem entries_replace (hash : PackageNameHash) (k : Nat) (old new : DependencyID) (pkg : PackageID)
    (i : Nat) : (b.replace hash k old new pkg).entries i =
      if i = k then (b.entries i).map fun d => if d = old then new else d else b.entries i := by
  rw [replace, entries_replaceEntry, entries_congr (resolvePending_list ..)]

theorem WellFormed.replace (h : b.WellFormed lockfile) {k : Nat} {old new : DependencyID}
    (hold : old ∈ b.entries k) (hnone : b.resolution old = none) (hnew : new < b.resolutions.length)
    (pkg : PackageID) : (b.replace (lockfile.dependency old).nameHash k old new pkg).WellFormed lockfile := by
  have hlt := h.entries_lt k old hold
  have h₁ := h.resolvePending hlt hnone pkg
  refine h.frame ((shape_replaceEntry ..).trans (shape_congr (resolvePending_list ..)))
    (h₁.aligned.replaceEntry k old new) (length_resolvePending ..) ?_ ?_
    (fun item hitem => .inl (resolvePending_queue b .. ▸ hitem)) (h.pending_resolvePending hlt rfl pkg)
  · rintro t d ⟨hd, hsome⟩
    obtain ⟨p, hp⟩ := Option.isSome_iff_exists.mp hsome
    have hd' : (b.replace (lockfile.dependency old).nameHash k old new pkg).resolution d = some p :=
      h.resolution_mono hlt hnone hp
    refine ⟨?_, by rw [hd']; rfl⟩
    rw [entries_replace]
    split_ifs
    · refine List.mem_map.mpr ⟨d, hd, if_neg ?_⟩
      rintro rfl
      rw [hnone] at hp
      cases hp
    · exact hd
  · intro i d hd
    rw [entries_replace] at hd
    split_ifs at hd
    · obtain ⟨d', hd', rfl⟩ := List.mem_map.mp hd
      split_ifs
      · exact hnew
      · exact h.entries_lt i d' hd'
    · exact h.entries_lt i d hd

/-- What settling a dependency asks of the place found for it. -/
def Fits (lockfile : Lockfile) (b : Builder) (depId : DependencyID) : HoistDependencyResult → Prop
  | .placement k _ => k < b.list.length
  | .resolve _ => b.resolution depId = none
  | .resolveLater => b.resolution depId = none
  | .resolveReplace k entry => entry ∈ b.entries k ∧ b.resolution entry = none ∧
      (lockfile.dependency entry).nameHash = (lockfile.dependency depId).nameHash
  | _ => True

theorem WellFormed.settle (h : b.WellFormed lockfile) (hoistRootId : Option Nat) {depId : DependencyID}
    (hdep : depId < b.resolutions.length) {r : HoistDependencyResult} (hr : b.Fits lockfile depId r) :
    (b.settle lockfile hoistRootId (b.resolution depId) depId r).WellFormed lockfile := by
  cases r with
  | dependencyLoop => exact h
  | hoisted => exact h
  | resolve res => exact h.resolvePending hdep hr res
  | resolveLater => exact h.resolveLater hdep hr
  | resolveReplace k entry =>
    obtain ⟨hentry, hnone, hname⟩ := hr
    cases hpkg : b.resolution depId with
    | none => exact h
    | some pkg =>
      have hplaced : (b.replace (lockfile.dependency entry).nameHash k entry depId pkg).Placed k depId := by
        constructor
        · rw [entries_replace, if_pos rfl]
          exact List.mem_map.mpr ⟨entry, hentry, if_pos rfl⟩
        · exact Option.isSome_iff_exists.mpr
            ⟨pkg, h.resolution_mono (h.entries_lt k entry hentry) hnone hpkg⟩
      have hwf := (h.replace hentry hnone hdep pkg).enqueue (some pkg) ⟨k, depId, hoistRootId⟩ hplaced
      rw [hname] at hwf
      exact hwf
  | placement k bundled =>
    have h₁ := h.pushEntry hr hdep
    cases hpkg : b.resolution depId with
    | none => exact h₁
    | some pkg =>
      refine h₁.enqueue (some pkg) _ ⟨?_, Option.isSome_iff_exists.mpr ⟨pkg, hpkg⟩⟩
      rw [entries_pushEntry h.aligned hr, if_pos rfl]
      exact List.mem_append_right _ (List.mem_singleton_self _)

@[simp] theorem shape_settle (hoistRootId : Option Nat) (pkgId : Option PackageID) (depId : DependencyID)
    (r : HoistDependencyResult) : (b.settle lockfile hoistRootId pkgId depId r).shape = b.shape := by
  cases r with
  | dependencyLoop => rfl
  | hoisted => rfl
  | resolve res => exact shape_congr (resolvePending_list ..)
  | resolveLater => rfl
  | resolveReplace k entry =>
    cases pkgId with
    | none => rfl
    | some pkg =>
      refine (shape_congr (enqueue_list ..)).trans ?_
      exact (shape_replaceEntry ..).trans (shape_congr (resolvePending_list ..))
  | placement k bundled => exact (shape_congr (enqueue_list ..)).trans (shape_pushEntry ..)

theorem length_settle (hoistRootId : Option Nat) (pkgId : Option PackageID) (depId : DependencyID)
    (r : HoistDependencyResult) :
    (b.settle lockfile hoistRootId pkgId depId r).list.length = b.list.length := by
  rw [← length_shape, shape_settle, length_shape]

theorem Place.fits (h : b.WellFormed lockfile) {nextId : Nat} (hnext : nextId < b.list.length)
    {hoistRootId : Option Nat} {depId : DependencyID} {r : HoistDependencyResult}
    (place : b.Place lockfile nextId hoistRootId (b.resolution depId) depId r) :
    b.Fits lockfile depId r := by
  cases place with
  | bundled _ => exact hnext
  | folder _ _ => exact hnext
  | free _ walk => exact lt_of_le_of_lt (ancestor_le h.parent_lt walk.ancestor) hnext
  | later _ _ _ hp => exact hp
  | replace walk he _ =>
    obtain ⟨hentry, hname⟩ := find_some walk.answer
    exact ⟨hentry, he, hname⟩
  | resolve _ _ _ hp => exact hp
  | same _ _ _ => trivial
  | own _ hr => rcases hr with rfl | rfl <;> trivial
  | accepted _ _ _ _ => trivial
  | conflict _ _ _ _ _ _ => exact hnext

end Builder

/-! ### Distinct names -/

/-- The names of a package's dependencies are distinct. -/
def Lockfile.DistinctNames (lockfile : Lockfile) : Prop :=
  ∀ p ∈ lockfile.packages, (p.resolutions.indices.map fun d => (lockfile.dependency d).nameHash).Nodup

namespace Builder
variable {b : Builder}

def DistinctEntries (lockfile : Lockfile) (b : Builder) : Prop :=
  ∀ i, ((b.entries i).map fun d => (lockfile.dependency d).nameHash).Nodup

theorem entries_settle_placement (h : b.WellFormed lockfile) {k : Nat} (hk : k < b.list.length)
    (hoistRootId : Option Nat) (pkgId : Option PackageID) (depId : DependencyID) (bundled : Bool) (i : Nat) :
    (b.settle lockfile hoistRootId pkgId depId (.placement k bundled)).entries i =
      if i = k then b.entries k ++ [depId] else b.entries i := by
  rw [settle, entries_congr (enqueue_list ..), entries_pushEntry h.aligned hk]

theorem entries_settle_replace (hoistRootId : Option Nat) (pkg : PackageID) (k : Nat)
    (entry depId : DependencyID) (i : Nat) :
    (b.settle lockfile hoistRootId (some pkg) depId (.resolveReplace k entry)).entries i =
      if i = k then (b.entries i).map fun d => if d = entry then depId else d else b.entries i := by
  rw [settle, entries_congr (enqueue_list ..)]
  exact entries_replace ..

variable {depId d : DependencyID} {r : HoistDependencyResult} {nextId id : Nat} {hoistRootId self : Option Nat}
  {dependencyId : Option DependencyID} {done : List DependencyID} {method : BuilderMethod} {b' : Builder} {pkg : PackageID}
  {item : FillItem} {queue : List FillItem}

theorem DistinctEntries.settle (h : b.WellFormed lockfile) (hd : b.DistinctEntries lockfile) (hoistRootId : Option Nat)
    (hr : b.Fits lockfile depId r) (hfresh : ∀ k bundled, r = .placement k bundled →
      ∀ d ∈ b.entries k, (lockfile.dependency d).nameHash ≠ (lockfile.dependency depId).nameHash) :
    (b.settle lockfile hoistRootId (b.resolution depId) depId r).DistinctEntries lockfile := by
  cases r with
  | dependencyLoop => exact hd
  | hoisted => exact hd
  | resolve res => exact fun i => entries_congr (resolvePending_list b ..) ▸ hd i
  | resolveLater => exact hd
  | resolveReplace k entry =>
    cases hpkg : b.resolution depId with
    | none => exact hd
    | some pkg =>
      intro i
      rw [entries_settle_replace]
      split_ifs
      · rw [List.map_map]
        convert hd i using 2
        funext d
        simp only [Function.comp_apply]
        split_ifs with hde
        · rw [hde, hr.2.2]
        · rfl
      · exact hd i
  | placement k bundled =>
    intro i
    rw [entries_settle_placement h hr]
    split_ifs
    · rw [List.map_append, List.nodup_append]
      refine ⟨hd k, List.nodup_singleton _, ?_⟩
      intro hash hhash hash' hhash' heq
      obtain ⟨d, hdk, rfl⟩ := List.mem_map.mp hhash
      rw [List.map_singleton, List.mem_singleton] at hhash'
      exact hfresh k bundled rfl d hdk (heq.trans hhash')
    · exact hd i

/-- A dependency is placed where its name is new: the folder being filled holds only
dependencies that were processed before. -/
theorem Place.fresh
    (hnew : ∀ d ∈ b.entries nextId, (lockfile.dependency d).nameHash ≠ (lockfile.dependency depId).nameHash)
    (place : b.Place lockfile nextId hoistRootId (b.resolution depId) depId r) (k : Nat) (bundled : Bool)
    (hr : r = .placement k bundled) :
    ∀ d ∈ b.entries k, (lockfile.dependency d).nameHash ≠ (lockfile.dependency depId).nameHash := by
  cases place with
  | bundled _ => cases hr; exact hnew
  | folder _ _ => cases hr; exact hnew
  | free _ walk => cases hr; exact find_none.mp walk.answer
  | own _ hown => rcases hown with rfl | rfl <;> cases hr
  | conflict _ _ _ _ _ _ => cases hr; exact hnew
  | later | replace | resolve | same | accepted => cases hr

/-! ### One folder -/

theorem shape_pushTree (self : Option Nat) (dependencyId : Option DependencyID) :
    (b.pushTree self dependencyId).shape = b.shape ++ [⟨b.list.length, dependencyId, self, ⟨0, 0⟩⟩] := by
  simp [shape, pushTree]

theorem entries_pushTree (self : Option Nat) (dependencyId : Option DependencyID) :
    (b.pushTree self dependencyId).entries = b.entries := by
  funext i
  rcases Nat.lt_trichotomy i b.list.length with hi | rfl | hi
  · simp [entries, pushTree, List.getElem?_append_left hi]
  · simp [entries, pushTree, Slice.get]
  · have hlen : (b.pushTree self dependencyId).list.length ≤ i := by
      simp only [pushTree, List.length_append, List.length_singleton]
      omega
    rw [entries, entries, List.getElem?_eq_none hlen, List.getElem?_eq_none hi.le]

theorem WellFormed.pushTree (h : b.WellFormed lockfile)
    (hlink : b.Linked b.list.length ⟨b.list.length, dependencyId, self, ⟨0, 0⟩⟩) :
    (b.pushTree self dependencyId).WellFormed lockfile := by
  have hplaced : ∀ t d, b.Placed t d → (b.pushTree self dependencyId).Placed t d := by
    rintro t d ⟨hd, hsome⟩
    exact ⟨entries_pushTree (b := b) .. ▸ hd, hsome⟩
  have hshape : ∀ (i : Nat) (t : Tree), (b.pushTree self dependencyId).shape[i]? = some t →
      b.shape[i]? = some t ∨
        i = b.list.length ∧ t = ⟨b.list.length, dependencyId, self, ⟨0, 0⟩⟩ := by
    intro i t ht
    rw [shape_pushTree] at ht
    rcases Nat.lt_or_ge i b.shape.length with hi | hi
    · exact .inl (List.getElem?_append_left hi ▸ ht)
    · rw [List.getElem?_append_right hi, List.getElem?_singleton, length_shape] at ht
      rw [length_shape] at hi
      split_ifs at ht with hzero
      exact .inr ⟨by omega, (Option.some.inj ht).symm⟩
  have hlinked : ∀ i t, b.Linked i t → (b.pushTree self dependencyId).Linked i t := by
    rintro i t (hroot | ⟨p, d, hlt, hparent, hdep, hp⟩)
    · exact .inl hroot
    · exact .inr ⟨p, d, hlt, hparent, hdep, hplaced p d hp⟩
  exact
    { id := fun i t ht => (hshape i t ht).elim (h.id i t) (by rintro ⟨rfl, rfl⟩; rfl)
      linked := fun i t ht => (hshape i t ht).elim (fun ht => hlinked i t (h.linked i t ht))
        (by rintro ⟨rfl, rfl⟩; exact hlinked _ _ hlink)
      aligned := by
        intro e he
        rcases List.mem_append.mp he with he | he
        · exact h.aligned e he
        · rw [List.mem_singleton.mp he]
          rfl
      resolutions := h.resolutions
      entries_lt := fun i d hd => h.entries_lt i d (entries_pushTree (b := b) .. ▸ hd)
      items := fun item hitem => hplaced _ _ (h.items item hitem)
      pending := h.pending }

/-- The last folder is dropped if it is empty. -/
theorem popEmpty_cases (h : b.Aligned) (hid : b.list.length = id + 1) :
    (b.entries id ≠ [] ∧ b.popEmpty id = b) ∨ (b.entries id = [] ∧ b.popEmpty id = {b with list := b.list.dropLast}) := by
  have hlist := List.getElem?_eq_getElem (show id < b.list.length by omega)
  rw [popEmpty, entries_eq h hlist, hlist, Option.map_some, Option.getD_some,
    h _ (List.getElem_mem _)]
  by_cases hnil : (b.list[id]).dependencies = []
  · exact .inr ⟨hnil, by simp [hnil]⟩
  · exact .inl ⟨hnil, by simp [hnil]⟩

theorem entries_dropLast (hid : b.list.length = id + 1) (hnil : b.entries id = []) :
    {b with list := b.list.dropLast}.entries = b.entries := by
  funext i
  rcases Nat.lt_trichotomy i id with hi | rfl | hi
  · rw [entries, entries, List.getElem?_dropLast, if_pos (by omega)]
  · rw [hnil, entries, List.getElem?_dropLast, if_neg (by omega)]
  · rw [entries, entries, List.getElem?_dropLast, if_neg (by omega), List.getElem?_eq_none (by omega)]

theorem entries_popEmpty (h : b.Aligned) (hid : b.list.length = id + 1) :
    (b.popEmpty id).entries = b.entries := by
  rcases popEmpty_cases h hid with ⟨-, hpop⟩ | ⟨hnil, hpop⟩
  · rw [hpop]
  · rw [hpop, entries_dropLast hid hnil]

theorem WellFormed.popEmpty (h : b.WellFormed lockfile) (hid : b.list.length = id + 1) :
    (b.popEmpty id).WellFormed lockfile := by
  rcases popEmpty_cases h.aligned hid with ⟨-, hpop⟩ | ⟨hnil, hpop⟩
  · rw [hpop]
    exact h
  rw [hpop]
  have hentries := entries_dropLast hid hnil
  have hplaced : ∀ t d, b.Placed t d → {b with list := b.list.dropLast}.Placed t d := by
    rintro t d ⟨hd, hsome⟩
    exact ⟨hentries ▸ hd, hsome⟩
  have hshape : ∀ (i : Nat) (t : Tree), {b with list := b.list.dropLast}.shape[i]? = some t →
      b.shape[i]? = some t := by
    intro i t ht
    rw [shape, List.map_dropLast, List.getElem?_dropLast] at ht
    split_ifs at ht
    exact ht
  exact
    { id := fun i t ht => h.id i t (hshape i t ht)
      linked := fun i t ht => by
        rcases h.linked i t (hshape i t ht) with hroot | ⟨p, d, hlt, hparent, hdep, hp⟩
        · exact .inl hroot
        · exact .inr ⟨p, d, hlt, hparent, hdep, hplaced p d hp⟩
      aligned := fun e he => h.aligned e (List.dropLast_subset _ he)
      resolutions := h.resolutions
      entries_lt := fun i d hd => h.entries_lt i d (hentries ▸ hd)
      items := fun item hitem => hplaced _ _ (h.items item hitem)
      pending := h.pending }

/-- While the folder `nextId` is filled: it is the last one, and holds only
dependencies the loop has been through. -/
structure Filling (lockfile : Lockfile) (nextId : Nat) (done : List DependencyID) (b : Builder) : Prop where
  wellFormed : b.WellFormed lockfile
  length : b.list.length = nextId + 1
  own : ∀ d ∈ b.entries nextId, d ∈ done

theorem own_settle (h : b.Filling lockfile nextId done) (hoistRootId : Option Nat) (hr : b.Fits lockfile depId r) :
    ∀ d ∈ (b.settle lockfile hoistRootId (b.resolution depId) depId r).entries nextId,
      d ∈ done ++ [depId] := by
  have hold : ∀ d ∈ b.entries nextId, d ∈ done ++ [depId] := fun d hd =>
    List.mem_append_left _ (h.own d hd)
  have hnew : depId ∈ done ++ [depId] := List.mem_append_right _ (List.mem_singleton_self _)
  intro d hd
  cases r with
  | dependencyLoop => exact hold d hd
  | hoisted => exact hold d hd
  | resolve res => exact hold d (entries_congr (resolvePending_list b ..) ▸ hd)
  | resolveLater => exact hold d hd
  | resolveReplace k entry =>
    cases hpkg : b.resolution depId with
    | none => exact hold d (by rwa [hpkg] at hd)
    | some pkg =>
      rw [hpkg, entries_settle_replace] at hd
      split_ifs at hd
      · obtain ⟨d', hd', rfl⟩ := List.mem_map.mp hd
        split_ifs
        · exact hnew
        · exact hold d' hd'
      · exact hold d hd
  | placement k bundled =>
    rw [entries_settle_placement h.wellFormed hr] at hd
    split_ifs at hd with hk
    · rcases List.mem_append.mp hd with hd | hd
      · exact hold d (hk ▸ hd)
      · exact List.mem_singleton.mp hd ▸ hnew
    · exact hold d hd

/-- One turn of the loop over a package's dependencies. -/
theorem Filling.step {parentPkgId : PackageID}
    (h : b.Filling lockfile nextId done) (hdep : depId < lockfile.dependencies.length)
    (hb : processDependency lockfile method parentPkgId nextId hoistRootId b depId = some (.ok b')) :
    b'.Filling lockfile nextId (done ++ [depId]) := by
  have hnext : nextId < b.list.length := by
    have := h.length
    omega
  rcases processDependency_cases h.wellFormed.parent_lt hnext hb with
    ⟨-, log, rfl⟩ | ⟨-, r, place, rfl⟩
  · exact ⟨h.wellFormed.frame rfl h.wellFormed.aligned rfl (fun _ _ hd => hd) h.wellFormed.entries_lt
      (fun item hitem => .inl hitem) h.wellFormed.pending, h.length,
      fun d hd => List.mem_append_left _ (h.own d hd)⟩
  · have hfits := place.fits h.wellFormed hnext
    exact ⟨h.wellFormed.settle hoistRootId (h.wellFormed.resolutions ▸ hdep) hfits,
      (length_settle ..).trans h.length, own_settle h hoistRootId hfits⟩

theorem mem_sortedDependencies :
    d ∈ lockfile.sortedDependencies pkg ↔ d ∈ (lockfile.resolutionList pkg).indices :=
  (List.perm_insertionSort _ _).mem_iff

theorem sortedDependencies_lt (pkg : PackageID)
    (h : d ∈ lockfile.sortedDependencies pkg) : d < lockfile.dependencies.length := by
  rw [mem_sortedDependencies, Slice.indices, List.mem_range'_1] at h
  unfold Lockfile.resolutionList at h
  cases hp : lockfile.packages[pkg]? with
  | none =>
    simp only [hp, Option.map_none, Option.getD_none] at h
    omega
  | some p =>
    have := lockfile.slices_valid p (List.mem_of_getElem? hp)
    simp only [hp, Option.map_some, Option.getD_some] at h
    exact lt_of_lt_of_le h.2 this

/-- The folder of a package that has dependencies is made, filled and kept if anything
is in it. -/
theorem processSubtree_cases
    (h : processSubtree lockfile method self dependencyId hoistRootId b = some (.ok b')) :
    (b' = b ∧ ∀ pkg, b.packageOf dependencyId = some pkg → (lockfile.resolutionList pkg).len = 0) ∨
    ∃ pkg b₁, b.packageOf dependencyId = some pkg ∧
      (lockfile.sortedDependencies pkg).foldlM
        (processDependency lockfile method pkg b.list.length hoistRootId) (b.pushTree self dependencyId) =
        some (.ok b₁) ∧ b' = b₁.popEmpty b.list.length := by
  unfold processSubtree at h
  cases hpkg : b.packageOf dependencyId with
  | none =>
    rw [hpkg] at h
    exact .inl ⟨(Run.pure_ok.mp h).symm, fun _ h => by cases h⟩
  | some pkg =>
    simp only [hpkg] at h
    split_ifs at h with hlen
    · exact .inl ⟨(Run.pure_ok.mp h).symm, by rintro _ ⟨⟩; exact hlen⟩
    · obtain ⟨b₁, hb₁, h⟩ := Run.bind_ok.mp h
      exact .inr ⟨pkg, b₁, rfl, hb₁, (Run.pure_ok.mp h).symm⟩

theorem filling_pushTree (h : b.WellFormed lockfile)
    (hlink : b.Linked b.list.length ⟨b.list.length, dependencyId, self, ⟨0, 0⟩⟩) :
    (b.pushTree self dependencyId).Filling lockfile b.list.length [] where
  wellFormed := h.pushTree hlink
  length := by simp [Builder.pushTree]
  own d hd := by
    rw [entries_pushTree] at hd
    exact absurd (entries_lt_length hd) (lt_irrefl _)

theorem filling_foldlM {b₁ : Builder} (h : b.Filling lockfile nextId []) (hb : (lockfile.sortedDependencies pkg).foldlM
      (processDependency lockfile method pkg nextId hoistRootId) b = some (.ok b₁)) :
    b₁.Filling lockfile nextId (lockfile.sortedDependencies pkg) := by
  refine Run.foldlM_ok (fun done b => b.Filling lockfile nextId done) _ ?_ h hb
  intro done d rest s s' hl hs hstep
  refine hs.step (sortedDependencies_lt pkg ?_) hstep
  rw [hl]
  exact List.mem_append_right _ List.mem_cons_self

theorem WellFormed.processSubtree (h : b.WellFormed lockfile)
    (hlink : b.Linked b.list.length ⟨b.list.length, dependencyId, self, ⟨0, 0⟩⟩)
    (hb : processSubtree lockfile method self dependencyId hoistRootId b = some (.ok b')) :
    b'.WellFormed lockfile := by
  rcases processSubtree_cases hb with ⟨rfl, -⟩ | ⟨pkg, b₁, -, hb₁, rfl⟩
  · exact h
  · have hfill := filling_foldlM (filling_pushTree h hlink) hb₁
    exact hfill.wellFormed.popEmpty hfill.length

theorem nodup_sortedDependencies (hnames : lockfile.DistinctNames) (pkg : PackageID) :
    ((lockfile.sortedDependencies pkg).map fun d => (lockfile.dependency d).nameHash).Nodup := by
  refine ((List.perm_insertionSort _ _).map _).nodup_iff.mpr ?_
  unfold Lockfile.resolutionList
  cases hp : lockfile.packages[pkg]? with
  | none => exact List.nodup_nil
  | some p => exact hnames p (List.mem_of_getElem? hp)

/-- With distinct names, no dependency has the name of one processed before it. -/
theorem name_ne_of_done (hnames : lockfile.DistinctNames) {done rest : List DependencyID}
    (hl : lockfile.sortedDependencies pkg = done ++ depId :: rest) (hd : d ∈ done) :
    (lockfile.dependency d).nameHash ≠ (lockfile.dependency depId).nameHash := by
  have hnodup := nodup_sortedDependencies hnames pkg
  rw [hl, List.map_append, List.nodup_append] at hnodup
  exact hnodup.2.2 _ (List.mem_map_of_mem hd) _ (List.mem_map_of_mem List.mem_cons_self)

theorem DistinctEntries.step (hnames : lockfile.DistinctNames) {done rest : List DependencyID}
    (h : b.Filling lockfile nextId done) (hd : b.DistinctEntries lockfile)
    (hl : lockfile.sortedDependencies pkg = done ++ depId :: rest)
    (hb : processDependency lockfile method pkg nextId hoistRootId b depId = some (.ok b')) :
    b'.DistinctEntries lockfile := by
  have hnext : nextId < b.list.length := by
    have := h.length
    omega
  rcases processDependency_cases h.wellFormed.parent_lt hnext hb with
    ⟨-, log, rfl⟩ | ⟨-, r, place, rfl⟩
  · exact hd
  · refine hd.settle h.wellFormed hoistRootId (place.fits h.wellFormed hnext) ?_
    exact place.fresh fun d hdn => name_ne_of_done hnames hl (h.own d hdn)

theorem DistinctEntries.processSubtree (hnames : lockfile.DistinctNames) (h : b.WellFormed lockfile)
    (hd : b.DistinctEntries lockfile)
    (hlink : b.Linked b.list.length ⟨b.list.length, dependencyId, self, ⟨0, 0⟩⟩)
    (hb : processSubtree lockfile method self dependencyId hoistRootId b = some (.ok b')) :
    b'.DistinctEntries lockfile := by
  rcases processSubtree_cases hb with ⟨rfl, -⟩ | ⟨pkg, b₁, -, hb₁, rfl⟩
  · exact hd
  obtain ⟨hfill, hd₁⟩ := Run.foldlM_ok
    (fun done s => s.Filling lockfile b.list.length done ∧ s.DistinctEntries lockfile) _
    (fun done d rest s s' hl hs hstep => by
      refine ⟨hs.1.step (sortedDependencies_lt pkg ?_) hstep, hs.2.step hnames hs.1 hl hstep⟩
      rw [hl]
      exact List.mem_append_right _ List.mem_cons_self)
    ⟨filling_pushTree h hlink, fun i => by rw [entries_pushTree]; exact hd i⟩ hb₁
  intro i
  rw [entries_popEmpty hfill.wellFormed.aligned hfill.length]
  exact hd₁ i

/-! ### Runs of the queue -/

theorem WellFormed.tree_id (h : b.WellFormed lockfile) {i : Nat} (hi : i < b.list.length) :
    ((b.list[i]?).map fun e : BuilderEntry => e.tree.id) = some i := by
  have hid := h.id i {b.list[i].tree with dependencies := ⟨0, 0⟩} (by
    rw [shape, List.getElem?_map, List.getElem?_eq_getElem hi, Option.map_some])
  rw [List.getElem?_eq_getElem hi, Option.map_some]
  exact congrArg some hid

/-- The link of the folder made for a queued item. -/
theorem WellFormed.linked_item (h : b.WellFormed lockfile) (hitem : item ∈ b.queue) (queue : List FillItem) :
    {b with queue := queue}.Linked b.list.length
      ⟨b.list.length, some item.dependencyId,
        (b.list[item.treeId]?).map fun e : BuilderEntry => e.tree.id, ⟨0, 0⟩⟩ := by
  have hplaced := h.items item hitem
  have hlt := entries_lt_length hplaced.1
  exact .inr ⟨item.treeId, item.dependencyId, hlt, h.tree_id hlt, rfl, hplaced⟩

theorem WellFormed.dequeue (h : b.WellFormed lockfile)
    (hq : b.queue = item :: queue) : {b with queue := queue}.WellFormed lockfile :=
  h.frame rfl h.aligned rfl (fun _ _ hd => hd) h.entries_lt
    (fun _ hi => .inl (hq ▸ List.mem_cons_of_mem _ hi)) h.pending

theorem WellFormed.processItem (h : b.WellFormed lockfile) (hq : b.queue = item :: queue)
    (hb : processItem lockfile method b item queue = some (.ok b')) : b'.WellFormed lockfile :=
  (h.dequeue hq).processSubtree (h.linked_item (hq ▸ List.mem_cons_self) queue) hb

theorem DistinctEntries.processItem (hnames : lockfile.DistinctNames) (h : b.WellFormed lockfile)
    (hd : b.DistinctEntries lockfile) (hq : b.queue = item :: queue)
    (hb : processItem lockfile method b item queue = some (.ok b')) : b'.DistinctEntries lockfile :=
  DistinctEntries.processSubtree hnames (h.dequeue hq) hd
    (h.linked_item (hq ▸ List.mem_cons_self) queue) hb

end Builder

/-- What every turn of the loop keeps holds when the queue is empty. -/
theorem processQueue_ok {method : BuilderMethod} (I : Builder → Prop)
    (step : ∀ b item queue b', b.queue = item :: queue → I b →
      processItem lockfile method b item queue = some (.ok b') → I b') (fuel : Nat) :
    ∀ b b', I b → processQueue lockfile method fuel b = some (.ok b') → I b' ∧ b'.queue = [] := by
  induction fuel with
  | zero => rintro b b' - ⟨⟩
  | succ fuel ih =>
    intro b b' hb h
    simp only [processQueue] at h
    cases hq : b.queue with
    | nil =>
      rw [hq] at h
      obtain rfl := Run.pure_ok.mp h
      exact ⟨hb, hq⟩
    | cons item queue =>
      simp only [hq] at h
      obtain ⟨b₁, hb₁, h⟩ := Run.bind_ok.mp h
      exact ih b₁ b' (step b item queue b₁ hq hb hb₁) h

/-- What the first folder establishes and every turn of the loop keeps. -/
theorem hoist_ok {method : BuilderMethod} (I : Builder → Prop)
    (first : ∀ b, processSubtree lockfile method none none none (Builder.init lockfile) = some (.ok b) → I b)
    (step : ∀ b item queue b', b.queue = item :: queue → I b →
      processItem lockfile method b item queue = some (.ok b') → I b')
    {fuel : Nat} {buffers : Buffers} (h : hoist lockfile method fuel = some (.ok buffers)) :
    ∃ b, I b ∧ b.queue = [] ∧ buffers = b.clean := by
  obtain ⟨b, hb, h⟩ := Run.bind_ok.mp h
  obtain ⟨b', hb', h⟩ := Run.bind_ok.mp h
  obtain ⟨hI, hq⟩ := processQueue_ok I step fuel b b' (first b hb) hb'
  exact ⟨b', hI, hq, (Run.pure_ok.mp h).symm⟩

end WellFormed
end Funbun.Install
