import Funbun.Install.HoistBuffers

/-! Which package a dependency finds.

Seen from a package, a dependency is looked up in the package's own folder, then in the folders above it. `Folders` is what
this lookup reads. Placing one dependency can only change what another one finds by putting the same name below it. -/
namespace Funbun.Install
open Library.Ancestry

/-! ### Folders -/

/-- The folders, the packages they are made for, and what the dependencies resolved to. -/
structure Folders where
  parent : Nat → Option Nat
  entries : Nat → List DependencyID
  package : Nat → Option PackageID
  resolution : DependencyID → Option PackageID

/-- What a dependency resolved to before hoisting. -/
def Lockfile.resolution (lockfile : Lockfile) (d : DependencyID) : Option PackageID :=
  (lockfile.resolutions[d]?).join

namespace Folders
variable (lockfile : Lockfile) (f f' : Folders)

/-- A package has a dependency that resolved to the other. -/
def DependsOn (p q : PackageID) : Prop :=
  ∃ d ∈ (lockfile.resolutionList p).indices, f.resolution d = some q

/-- The second package is a bundled dependency of the first, or needed by one. -/
def NeededBundled (p q : PackageID) : Prop :=
  ∃ d ∈ (lockfile.resolutionList p).indices, (lockfile.dependency d).behavior.bundled = true ∧
    ∃ q₀, f.resolution d = some q₀ ∧ Relation.ReflTransGen (f.DependsOn lockfile) q₀ q

/-- The entry is a dependency of a package needed by the bundled dependencies of the folder's package, or
it took the place of one that was open before hoisting and resolved as it did. -/
def Bundles (i : Nat) (e : DependencyID) : Prop :=
  ∃ p q e₀, f.package i = some p ∧ f.NeededBundled lockfile p q ∧ e₀ ∈ (lockfile.resolutionList q).indices ∧
    (e₀ = e ∨ lockfile.resolution e₀ = none ∧
      (lockfile.dependency e₀).nameHash = (lockfile.dependency e).nameHash ∧
        ∃ r, f.resolution e₀ = some r ∧ f.resolution e = some r)

/-- The first entry of a folder with a name. -/
def find (i : Nat) (hash : PackageNameHash) : Option DependencyID :=
  (f.entries i).find? fun d => (lockfile.dependency d).nameHash == hash

/-- The entry is the package the dependency resolved to, or one it accepts as a peer. -/
def Right (d entry : DependencyID) : Prop :=
  ∃ r, f.resolution entry = some r ∧ (f.resolution d = some r ∨ accepts lockfile d entry r = true)

/-- Seen from a folder, a dependency finds a right entry, and below it the name only on
entries that the packages of their folders bundle. -/
def Resolves (i : Nat) (d : DependencyID) : Prop :=
  ∃ k, Ancestor f.parent i k ∧
    (∃ e ∈ f.entries k, (lockfile.dependency e).nameHash = (lockfile.dependency d).nameHash ∧
      f.Right lockfile d e) ∧
    ∀ j, Ancestor f.parent i j → Ancestor f.parent j k → j ≠ k → ∀ e ∈ f.entries j,
      (lockfile.dependency e).nameHash = (lockfile.dependency d).nameHash → f.Bundles lockfile j e

variable {lockfile f f'}

theorem NeededBundled.mono (hres : ∀ d p, f.resolution d = some p → f'.resolution d = some p)
    {p q : PackageID} (h : f.NeededBundled lockfile p q) : f'.NeededBundled lockfile p q := by
  obtain ⟨d, hd, hb, q₀, hq₀, hreach⟩ := h
  refine ⟨d, hd, hb, q₀, hres d q₀ hq₀, Relation.ReflTransGen.mono ?_ _ _ hreach⟩
  intro p q h
  obtain ⟨d, hd, hdq⟩ := h
  exact ⟨d, hd, hres d q hdq⟩

variable {i : Nat} {e d : DependencyID}

theorem Bundles.mono (hres : ∀ d p, f.resolution d = some p → f'.resolution d = some p)
    (hpkg : ∀ p, f.package i = some p → f'.package i = some p) (h : f.Bundles lockfile i e) : f'.Bundles lockfile i e := by
  obtain ⟨p, q, e₀, hp, hq, he₀, hplace⟩ := h
  refine ⟨p, q, e₀, hpkg p hp, hq.mono hres, he₀, hplace.imp_right ?_⟩
  rintro ⟨hopen, hname, r, hr₀, hr⟩
  exact ⟨hopen, hname, r, hres e₀ r hr₀, hres e r hr⟩

/-- What takes the place of an open entry resolves as it does. -/
theorem Bundles.replace (hres : ∀ d p, f.resolution d = some p → f'.resolution d = some p)
    (hpkg : ∀ p, f.package i = some p → f'.package i = some p) {e e' : DependencyID}
    (hopen : lockfile.resolution e = none) (hnone : f.resolution e = none)
    (hname : (lockfile.dependency e).nameHash = (lockfile.dependency e').nameHash) {r : PackageID}
    (hr : f'.resolution e = some r) (hr' : f'.resolution e' = some r)
    (h : f.Bundles lockfile i e) : f'.Bundles lockfile i e' := by
  obtain ⟨p, q, e₀, hp, hq, he₀, rfl | ⟨-, -, r₀, -, hr₀⟩⟩ := h
  · exact ⟨p, q, e₀, hpkg p hp, hq.mono hres, he₀, .inr ⟨hopen, hname, r, hr, hr'⟩⟩
  · rw [hnone] at hr₀
    cases hr₀

theorem Right.mono (hres : ∀ d p, f.resolution d = some p → f'.resolution d = some p)
    {d entry : DependencyID} (h : f.Right lockfile d entry) : f'.Right lockfile d entry := by
  obtain ⟨r, hr, h⟩ := h
  exact ⟨r, hres entry r hr, h.imp_left (hres d r)⟩

/-- What a dependency finds stays, unless its name appears below on an entry that is not
bundled there. -/
theorem Resolves.mono (hparent : ∀ x, Ancestor f.parent i x → f'.parent x = f.parent x)
    (hres : ∀ d p, f.resolution d = some p → f'.resolution d = some p)
    (hplaced : ∀ k, ∀ e ∈ f.entries k, (f.resolution e).isSome → e ∈ f'.entries k)
    (hnew : ∀ j, Ancestor f.parent i j → ∀ e' ∈ f'.entries j,
      (lockfile.dependency e').nameHash = (lockfile.dependency d).nameHash →
        f.parent j = none ∨ f'.Bundles lockfile j e' ∨
          ∃ e ∈ f.entries j, (lockfile.dependency e).nameHash = (lockfile.dependency d).nameHash ∧
            (f.Bundles lockfile j e → f'.Bundles lockfile j e')) (h : f.Resolves lockfile i d) : f'.Resolves lockfile i d := by
  obtain ⟨k, hk, ⟨e, he, hname, hright⟩, hbelow⟩ := h
  have hsome : (f.resolution e).isSome := by
    obtain ⟨r, hr, -⟩ := hright
    rw [hr]
    rfl
  refine ⟨k, ancestor_congr (fun x hx => (hparent x hx).symm) hk,
    ⟨e, hplaced k e he hsome, hname, hright.mono hres⟩, ?_⟩
  intro j hj hjk hne e' he' hname'
  have hj' : Ancestor f.parent i j := ancestor_congr_of hparent hj
  have hjk' : Ancestor f.parent j k :=
    ancestor_congr_of (fun x hx => hparent x (hj'.trans hx)) hjk
  rcases hnew j hj' e' he' hname' with hroot | hbundles | ⟨e, he, hname, hold⟩
  · refine absurd (Relation.ReflTransGen.cases_head hjk') ?_
    intro hcases
    rcases hcases with rfl | ⟨x, hx, -⟩
    · exact hne rfl
    · rw [hroot] at hx
      cases hx
  · exact hbundles
  · exact hold (hbelow j hj' hjk' hne e he hname)

/-- An entry of the package's own folder is found first. -/
theorem Resolves.own (lt : ∀ i j, f.parent i = some j → j < i)
    (he : e ∈ f.entries i) (hname : (lockfile.dependency e).nameHash = (lockfile.dependency d).nameHash)
    (hright : f.Right lockfile d e) : f.Resolves lockfile i d := by
  refine ⟨i, .refl, ⟨e, he, hname, hright⟩, fun j hij hji hne => ?_⟩
  exact absurd (le_antisymm (ancestor_le lt hij) (ancestor_le lt hji)) hne

/-- The first folder with the name has a right entry, or one that its package bundles. -/
theorem Resolves.first (hnodup : ∀ i, ((f.entries i).map fun d => (lockfile.dependency d).nameHash).Nodup)
    (h : f.Resolves lockfile i d) :
    ∃ k e, Lookup f.parent none (f.find lockfile · (lockfile.dependency d).nameHash) i k (some e) ∧
      (f.Right lockfile d e ∨ f.Bundles lockfile k e) := by
  obtain ⟨k, hk, ⟨e, he, hname, hright⟩, hbelow⟩ := h
  induction hk using Relation.ReflTransGen.head_induction_on with
  | refl =>
    rcases hfind : f.find lockfile k (lockfile.dependency d).nameHash with _ | e'
    · have hnone := List.find?_eq_none.mp hfind e he
      simp [hname] at hnone
    · refine ⟨k, e', .found hfind, .inl ?_⟩
      have hname' : (lockfile.dependency e').nameHash = (lockfile.dependency d).nameHash := by
        simpa using List.find?_some hfind
      rwa [List.inj_on_of_nodup_map (hnodup k) (List.mem_of_find?_eq_some hfind) he
        (hname'.trans hname.symm)]
  | @head i j link hjk ih =>
    rcases hfind : f.find lockfile i (lockfile.dependency d).nameHash with _ | e'
    · obtain ⟨k', e', walk, h⟩ := ih fun x hjx => hbelow x (hjx.head link)
      exact ⟨k', e', .up hfind (by simp) link walk, h⟩
    · have hname' : (lockfile.dependency e').nameHash = (lockfile.dependency d).nameHash := by
        simpa using List.find?_some hfind
      refine ⟨i, e', .found hfind, ?_⟩
      by_cases hik : i = k
      · subst hik
        refine .inl ?_
        rwa [List.inj_on_of_nodup_map (hnodup i) (List.mem_of_find?_eq_some hfind) he
          (hname'.trans hname.symm)]
      · exact .inr (hbelow i .refl (hjk.head link) hik e' (List.mem_of_find?_eq_some hfind) hname')

end Folders
/-! ### The folders of a builder -/

namespace Builder
variable {lockfile : Lockfile} {b b' : Builder}

/-- The package the folder `i` is made for. -/
def treePackage (b : Builder) (i : Nat) : Option PackageID :=
  (b.shape[i]?).bind fun t => b.packageOf t.dependencyId

def folders (b : Builder) : Folders := ⟨b.parent, b.entries, b.treePackage, b.resolution⟩

variable {p pkg : PackageID} {id d depId : DependencyID}

theorem packageOf_mono (hres : ∀ d p, b.resolution d = some p → b'.resolution d = some p)
    {d : Option DependencyID} (h : b.packageOf d = some p) : b'.packageOf d = some p := by
  cases d with
  | none => exact h
  | some d => exact hres d p h

theorem treePackage_mono (hres : ∀ d p, b.resolution d = some p → b'.resolution d = some p) {i : Nat}
    (hshape : ∀ t, b.shape[i]? = some t → b'.shape[i]? = some t)
    (h : b.treePackage i = some p) : b'.treePackage i = some p := by
  obtain ⟨t, ht, hp⟩ := Option.bind_eq_some_iff.mp h
  exact Option.bind_eq_some_iff.mpr ⟨t, hshape t ht, packageOf_mono hres hp⟩

theorem parent_congr {i : Nat} (hshape : b'.shape[i]? = b.shape[i]?) : b'.parent i = b.parent i := by
  rw [parent_eq_shape, parent_eq_shape, hshape]

/-! ### What settling one dependency changes -/

/-- Everything settling a dependency does to the resolutions, the entries and the pending
optional peers. -/
structure Settles (lockfile : Lockfile) (b b' : Builder) (depId : DependencyID)
    (r : HoistDependencyResult) : Prop where
  shape : b'.shape = b.shape
  resolved : ∀ d p, b.resolution d = some p → b'.resolution d = some p
  placed : ∀ t d, d ∈ b.entries t → (b.resolution d).isSome → d ∈ b'.entries t
  /-- A new resolution comes from a dependency of the same name. -/
  fresh : ∀ d p, b.resolution d = none → b'.resolution d = some p →
    (d = depId ∨ (∃ t, d ∈ b.entries t) ∨ ∃ hash, d ∈ b.pendingOptionalPeers hash)
  /-- A new entry is the dependency, which was placed or replaces an open one of its name. -/
  entries : ∀ t d, d ∈ b'.entries t → d ∈ b.entries t ∨ d = depId ∧
    ((∃ bundled, r = .placement t bundled) ∨ ∃ e ∈ b.entries t, b.resolution e = none ∧
      (lockfile.dependency e).nameHash = (lockfile.dependency depId).nameHash ∧
        ∃ p, b'.resolution e = some p ∧ b'.resolution depId = some p)
  pending : ∀ hash, ∀ d ∈ b'.pendingOptionalPeers hash,
    d ∈ b.pendingOptionalPeers hash ∨ (d = depId ∧ r = .resolveLater)
  /-- An unresolved entry stays, or gives way to a dependency of its name it is resolved by. -/
  kept : ∀ t d, d ∈ b.entries t → b.resolution d = none → d ∈ b'.entries t ∨
    ∃ p, b'.resolution d = some p ∧ b'.resolution depId = some p ∧ depId ∈ b'.entries t ∧
      (lockfile.dependency depId).nameHash = (lockfile.dependency d).nameHash

theorem resolved_resolvePending (h : b.WellFormed lockfile) (hid : id < b.resolutions.length) (hd : b.resolution d = none)
    (hd' : (b.resolvePending (lockfile.dependency id).nameHash id pkg).resolution d = some p) :
    p = pkg ∧ (d = id ∨ d ∈ b.pendingOptionalPeers (lockfile.dependency id).nameHash) := by
  rw [resolution_resolvePending b hid fun d hd => (h.pending _ d hd).1] at hd'
  split_ifs at hd' with hnew
  · exact ⟨(Option.some.inj hd').symm, hnew⟩
  · rw [hd] at hd'
    cases hd'

variable {hash hash' : PackageNameHash} {r : HoistDependencyResult}

theorem mem_pending_resolvePending (hd : d ∈ (b.resolvePending hash id pkg).pendingOptionalPeers hash') :
    d ∈ b.pendingOptionalPeers hash' := by
  rw [resolvePending_pending] at hd
  by_cases hhash : hash' = hash
  · simp [hhash] at hd
  · rwa [Function.update_of_ne hhash] at hd

/-- Nothing changes but what is pending. -/
theorem settles_same (hlist : b'.list = b.list)
    (hres : b'.resolutions = b.resolutions) (hpending : ∀ hash, ∀ d ∈ b'.pendingOptionalPeers hash,
      d ∈ b.pendingOptionalPeers hash ∨ (d = depId ∧ r = .resolveLater)) : b.Settles lockfile b' depId r := by
  have hresolution : b'.resolution = b.resolution := by
    funext d
    rw [resolution, hres, resolution]
  have hentries := entries_congr hlist
  exact
    { shape := shape_congr hlist
      resolved := fun d p hd => hresolution ▸ hd
      placed := fun t d hd _ => hentries ▸ hd
      fresh := fun d p hd hd' => by
        rw [hresolution, hd] at hd'
        cases hd'
      entries := fun t d hd => .inl (hentries ▸ hd)
      pending := hpending
      kept := fun t d hd _ => .inl (hentries ▸ hd) }

theorem mem_pending_resolveLater
    (hd : d ∈ (b.resolveLater hash id).pendingOptionalPeers hash') : d ∈ b.pendingOptionalPeers hash' ∨ d = id := by
  simp only [Builder.resolveLater] at hd
  by_cases hhash : hash' = hash
  · rw [hhash, Function.update_self] at hd
    split_ifs at hd
    · exact .inl (hhash ▸ hd)
    · exact (List.mem_append.mp hd).imp (hhash ▸ ·) List.mem_singleton.mp
  · rw [Function.update_of_ne hhash] at hd
    exact .inl hd

/-- The dependency takes the place of an open entry, which is resolved as it is. -/
theorem settles_replace (h : b.WellFormed lockfile) (hoistRootId : Option Nat) {depId entry : DependencyID} {k : Nat}
    (hpkg : b.resolution depId = some pkg) (hentry : entry ∈ b.entries k) (hnone : b.resolution entry = none)
    (hname : (lockfile.dependency entry).nameHash = (lockfile.dependency depId).nameHash) :
    b.Settles lockfile (b.settle lockfile hoistRootId (some pkg) depId (.resolveReplace k entry)) depId
      (.resolveReplace k entry) := by
  have hlt := h.entries_lt k entry hentry
  have hres : ∀ d, (b.settle lockfile hoistRootId (some pkg) depId (.resolveReplace k entry)).resolution d =
      (b.resolvePending (lockfile.dependency entry).nameHash entry pkg).resolution d := by
    intro d
    rw [settle, ← hname, resolution, enqueue_resolutions]
    rfl
  have hmono : ∀ d p, b.resolution d = some p →
      (b.settle lockfile hoistRootId (some pkg) depId (.resolveReplace k entry)).resolution d = some p :=
    fun d p hd => (hres d).trans (h.resolution_mono hlt hnone hd)
  have hentry' : (b.settle lockfile hoistRootId (some pkg) depId (.resolveReplace k entry)).resolution entry =
      some pkg := by
    rw [hres, resolution_resolvePending b hlt fun d hd => (h.pending _ d hd).1, if_pos (.inl rfl)]
  exact
    { shape := shape_settle ..
      resolved := hmono
      placed := fun t d hd hsome => by
        rw [entries_settle_replace]
        split_ifs
        · refine List.mem_map.mpr ⟨d, hd, if_neg ?_⟩
          rintro rfl
          simp [hnone] at hsome
        · exact hd
      fresh := fun d p hd hd' => by
        rw [hres] at hd'
        rcases (resolved_resolvePending h hlt hd hd').2 with rfl | hpending
        · exact .inr (.inl ⟨k, hentry⟩)
        · exact .inr (.inr ⟨_, hpending⟩)
      entries := fun t d hd => by
        rw [entries_settle_replace] at hd
        split_ifs at hd with ht
        · obtain ⟨d', hd', rfl⟩ := List.mem_map.mp hd
          split_ifs
          · exact .inr ⟨rfl, .inr ⟨entry, ht ▸ hentry, hnone, hname, pkg, hentry', hmono depId pkg hpkg⟩⟩
          · exact .inl hd'
        · exact .inl hd
      pending := fun hash d hd => by
        rw [settle, enqueue_pending] at hd
        exact .inl (mem_pending_resolvePending hd)
      kept := fun t d hd hdnone => by
        rw [entries_settle_replace]
        split_ifs with ht
        · by_cases hde : d = entry
          · subst hde
            exact .inr ⟨pkg, hentry', hmono depId pkg hpkg, List.mem_map.mpr ⟨d, hd, if_pos rfl⟩, hname.symm⟩
          · exact .inl (List.mem_map.mpr ⟨d, hd, if_neg hde⟩)
        · exact .inl hd }

/-- The dependency becomes an entry. -/
theorem settles_placement (h : b.WellFormed lockfile) (hoistRootId : Option Nat) {k : Nat}
    {bundled : Bool} (hk : k < b.list.length) :
    b.Settles lockfile (b.settle lockfile hoistRootId (b.resolution depId) depId (.placement k bundled)) depId
      (.placement k bundled) := by
  have hentries := entries_settle_placement h hk hoistRootId (b.resolution depId) depId bundled
  have hres : ∀ d, (b.settle lockfile hoistRootId (b.resolution depId) depId
      (.placement k bundled)).resolution d = b.resolution d := by
    intro d
    rw [settle, resolution, enqueue_resolutions]
    rfl
  have hold : ∀ t d, d ∈ b.entries t →
      d ∈ (b.settle lockfile hoistRootId (b.resolution depId) depId (.placement k bundled)).entries t := by
    intro t d hd
    rw [hentries]
    split_ifs with ht
    · exact List.mem_append_left _ (ht ▸ hd)
    · exact hd
  exact
    { shape := shape_settle ..
      resolved := fun d p hd => (hres d).trans hd
      placed := fun t d hd _ => hold t d hd
      fresh := fun d p hd hd' => by
        rw [hres, hd] at hd'
        cases hd'
      entries := fun t d hd => by
        rw [hentries] at hd
        split_ifs at hd with ht
        · exact (List.mem_append.mp hd).imp (ht ▸ ·) fun hd => ⟨List.mem_singleton.mp hd, .inl ⟨bundled, by rw [ht]⟩⟩
        · exact .inl hd
      pending := fun hash d hd => by
        rw [settle, enqueue_pending] at hd
        exact .inl hd
      kept := fun t d hd _ => .inl (hold t d hd) }

theorem settles (h : b.WellFormed lockfile) (hoistRootId : Option Nat)
    (hdep : depId < b.resolutions.length) (hr : b.Fits lockfile depId r) :
    b.Settles lockfile (b.settle lockfile hoistRootId (b.resolution depId) depId r) depId r := by
  cases r with
  | dependencyLoop => exact settles_same rfl rfl fun _ _ hd => .inl hd
  | hoisted => exact settles_same rfl rfl fun _ _ hd => .inl hd
  | resolveLater =>
    exact settles_same rfl rfl fun hash d hd => (mem_pending_resolveLater hd).imp_right fun hd => ⟨hd, rfl⟩
  | resolve res =>
    have hentries : (b.resolvePending (lockfile.dependency depId).nameHash depId res).entries = b.entries :=
      entries_congr (resolvePending_list ..)
    exact
      { shape := shape_settle ..
        resolved := fun d p hd => h.resolution_mono hdep hr hd
        placed := fun t d hd _ => show d ∈ Builder.entries _ t from hentries ▸ hd
        fresh := fun d p hd hd' =>
          (resolved_resolvePending h hdep hd hd').2.imp id fun hpending => .inr ⟨_, hpending⟩
        entries := fun t d hd => .inl (hentries ▸ hd)
        pending := fun hash d hd => .inl (mem_pending_resolvePending hd)
        kept := fun t d hd _ => .inl (show d ∈ Builder.entries _ t from hentries ▸ hd) }
  | resolveReplace k entry =>
    obtain ⟨hentry, hnone, hname⟩ := hr
    cases hpkg : b.resolution depId with
    | none => exact settles_same rfl rfl fun _ _ hd => .inl hd
    | some pkg => exact settles_replace h hoistRootId hpkg hentry hnone hname
  | placement k bundled => exact settles_placement h hoistRootId hr

end Builder

/-! ### Every processed dependency is satisfied -/

/-- Unresolved dependencies that are placed all the same. -/
def Lockfile.MayWait (lockfile : Lockfile) (d : DependencyID) : Prop :=
  (lockfile.dependency d).behavior.bundled = true ∨ (lockfile.dependency d).behavior.isOptionalPeer = true

/-- A name that is empty or stays inside its folder. -/
def Lockfile.SafeName (lockfile : Lockfile) (d : DependencyID) : Prop :=
  (lockfile.dependency d).name = [] ∨ isSafeInstallFolderName (lockfile.dependency d).name = true

namespace Builder
variable {lockfile : Lockfile} {b b' : Builder}

/-- The resolutions are those of the lockfile, and those found for optional peers and
bundled dependencies it left open. -/
structure Tracked (lockfile : Lockfile) (b : Builder) : Prop where
  input : ∀ d p, lockfile.resolution d = some p → b.resolution d = some p
  late : ∀ d p, lockfile.resolution d = none → b.resolution d = some p → lockfile.MayWait d
  entries : ∀ t d, d ∈ b.entries t → b.resolution d = none → lockfile.MayWait d
  pending : ∀ hash, ∀ d ∈ b.pendingOptionalPeers hash,
    (lockfile.dependency d).behavior.isOptionalPeer = true

/-- What holds of a dependency once it was processed for the folder `i`. -/
structure Satisfied (lockfile : Lockfile) (b : Builder) (i : Nat) (d : DependencyID) : Prop where
  waiting : b.resolution d = none → (lockfile.dependency d).behavior.bundled = true → d ∈ b.entries i
  resolved : ∀ p, b.resolution d = some p →
    ((lockfile.dependency d).behavior.isOptionalPeer = true ∧ lockfile.resolution d = none) ∨
      b.folders.Resolves lockfile i d

variable {depId d : DependencyID} {r : HoistDependencyResult}

theorem resolution_none_of_settles (hs : b.Settles lockfile b' depId r) (hd : b'.resolution d = none) :
    b.resolution d = none := by
  rcases hres : b.resolution d with _ | p
  · rfl
  · rw [hs.resolved d p hres] at hd
    cases hd

theorem Tracked.input_none (h : b.Tracked lockfile) (hd : b.resolution d = none) :
    lockfile.resolution d = none := by
  rcases hinput : lockfile.resolution d with _ | q
  · rfl
  · rw [h.input d q hinput] at hd
    cases hd

theorem Tracked.settle (h : b.Tracked lockfile) (hs : b.Settles lockfile b' depId r)
    (hwait : b.resolution depId = none → lockfile.MayWait depId)
    (hlater : r = .resolveLater → (lockfile.dependency depId).behavior.isOptionalPeer = true) :
    b'.Tracked lockfile where
  input d p hd := hs.resolved d p (h.input d p hd)
  late d p hd hd' := by
    rcases hres : b.resolution d with _ | q
    · rcases hs.fresh d p hres hd' with rfl | ⟨t, ht⟩ | ⟨hash, hhash⟩
      · exact hwait hres
      · exact h.entries t d ht hres
      · exact .inr (h.pending hash d hhash)
    · exact h.late d q hd hres
  entries t d hd hnone := by
    have hres := resolution_none_of_settles hs hnone
    rcases hs.entries t d hd with hd | ⟨rfl, -⟩
    · exact h.entries t d hd hres
    · exact hwait hres
  pending hash d hd := by
    rcases hs.pending hash d hd with hd | ⟨rfl, hr⟩
    · exact h.pending hash d hd
    · exact hlater hr

theorem Settles.parent (hs : b.Settles lockfile b' depId r) : b'.parent = b.parent := by
  funext i
  exact parent_congr (by rw [hs.shape])

/-- Settling a dependency keeps the others satisfied. -/
theorem Satisfied.settle (hwf : b.WellFormed lockfile)
    (ht : b.Tracked lockfile) (ht' : b'.Tracked lockfile) (hs : b.Settles lockfile b' depId r) {i : Nat}
    (hnew : ∀ j bundled, r = .placement j bundled → Ancestor b.parent i j →
      (lockfile.dependency d).nameHash = (lockfile.dependency depId).nameHash →
        b.parent j = none ∨ b'.folders.Bundles lockfile j depId)
    (h : b.Satisfied lockfile i d) : b'.Satisfied lockfile i d := by
  rcases hres : b.resolution d with _ | p
  · have hkept : (lockfile.dependency d).behavior.bundled = true → _ := fun hb =>
      hs.kept i d (h.waiting hres hb) hres
    constructor
    · intro hnone hb
      rcases hkept hb with hd | ⟨p, hp, -⟩
      · exact hd
      · rw [hnone] at hp
        cases hp
    · intro p hp
      have hinput := ht.input_none hres
      rcases ht'.late d p hinput hp with hb | hpeer
      · refine .inr ?_
        have hlt : ∀ i j, b'.folders.parent i = some j → j < i := by
          intro i j hij
          exact hwf.parent_lt i j (hs.parent ▸ hij)
        rcases hkept hb with hd | ⟨q, hq, hdep, hmem, hname⟩
        · exact .own hlt hd rfl ⟨p, hp, .inl hp⟩
        · exact .own hlt hmem hname ⟨q, hdep, .inl hq⟩
      · exact .inl ⟨hpeer, hinput⟩
  · have hmono := hs.resolved d p hres
    constructor
    · intro hnone
      rw [hmono] at hnone
      cases hnone
    · intro q _
      refine (h.resolved p hres).imp id fun hold => ?_
      have hpkg : ∀ j q, b.treePackage j = some q → b'.treePackage j = some q := fun j q hq =>
        treePackage_mono hs.resolved (fun t ht => by rw [hs.shape]; exact ht) hq
      refine Folders.Resolves.mono (f := b.folders) (fun x _ => congrFun hs.parent x) hs.resolved hs.placed ?_ hold
      intro j hj e' he' hname
      rcases hs.entries j e' he' with hold | ⟨rfl, ⟨bundled, hr⟩ | ⟨e, he, hnone, hename, q, hq, hq'⟩⟩
      · exact .inr (.inr ⟨e', hold, hname, .mono hs.resolved (hpkg j)⟩)
      · exact (hnew j bundled hr hj hname.symm).imp_right .inl
      · exact .inr (.inr ⟨e, he, hename.trans hname, .replace hs.resolved (hpkg j) (ht.input_none hnone) hnone hename hq hq'⟩)

end Builder
end Funbun.Install
