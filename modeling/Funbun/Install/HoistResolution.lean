import Funbun.Install.Folders

/-! Every dependency finds its package.

Once a dependency was processed for a folder, it finds the package it resolved to from there, whatever is placed later. Only
a placement into the folder of a package with bundled dependencies can come between it and what it found. -/
namespace Funbun.Install
open Library.Ancestry

namespace Builder
variable {lockfile : Lockfile} {b b' : Builder}

/-! ### One dependency -/

/-- What is processed for a folder is needed by a bundled dependency of its hoist root. -/
def Rooted (lockfile : Lockfile) (b : Builder) (hoistRootId : Option Nat) (pkg : PackageID) : Prop :=
  ∀ h, hoistRootId = some h → ∃ p, b.treePackage h = some p ∧ b.folders.NeededBundled lockfile p pkg

variable {hoistRootId : Option Nat} {pkg : PackageID} {depId : DependencyID} {r : HoistDependencyResult} {i : Nat}

theorem Rooted.bundles (h : b.Rooted lockfile hoistRootId pkg) (hdep : depId ∈ (lockfile.resolutionList pkg).indices) {k : Nat}
    (hk : hoistRootId = some k) : b.folders.Bundles lockfile k depId := by
  obtain ⟨p, hp, hneeded⟩ := h k hk
  exact ⟨p, pkg, depId, hp, hneeded, hdep, .inl rfl⟩

/-- The dependency just settled is satisfied. -/
theorem Place.satisfied {nextId : Nat} (hwf : b.WellFormed lockfile) (hnext : nextId < b.list.length)
    (ht : b.Tracked lockfile) (hdep : depId < b.resolutions.length) (hwait : b.resolution depId = none → lockfile.MayWait depId)
    (hnew : ∀ d ∈ b.entries nextId, (lockfile.dependency d).nameHash ≠ (lockfile.dependency depId).nameHash)
    (place : b.Place lockfile nextId hoistRootId (b.resolution depId) depId r) :
    (b.settle lockfile hoistRootId (b.resolution depId) depId r).Satisfied lockfile nextId depId := by
  have hfits := place.fits hwf hnext
  have hs := settles hwf hoistRootId hdep hfits
  set b' := b.settle lockfile hoistRootId (b.resolution depId) depId r with hb'
  have hparent : b'.folders.parent = b.parent := hs.parent
  have hlt : ∀ i j, b'.folders.parent i = some j → j < i := hparent ▸ hwf.parent_lt
  -- whatever else happens, an entry of the own folder satisfies the dependency
  have hown : depId ∈ b'.entries nextId → b'.Satisfied lockfile nextId depId := fun hmem =>
    ⟨fun _ _ => hmem, fun p hp => .inr (.own hlt hmem rfl ⟨p, hp, .inl hp⟩)⟩
  have hplaced : ∀ k bundled, r = .placement k bundled → k < b.list.length → depId ∈ b'.entries k := by
    intro k bundled hr hk
    rw [hb', hr, entries_settle_placement hwf hk, if_pos rfl]
    exact List.mem_append_right _ (List.mem_singleton_self _)
  -- an unresolved dependency that is not bundled is an optional peer
  have hopen : (lockfile.dependency depId).behavior.bundled = false → b.resolution depId = none →
      b'.Satisfied lockfile nextId depId := by
    intro hb hnone
    refine ⟨fun _ hb' => ?_, fun p _ => .inl ⟨?_, ?_⟩⟩
    · rw [hb] at hb'
      cases hb'
    · rcases hwait hnone with hb' | hpeer
      · rw [hb] at hb'
        cases hb'
      · exact hpeer
    · exact ht.input_none hnone
  -- a right entry higher up, with nothing of the name below
  have habove : ∀ k entry, b.resolution depId ≠ none → b.Walk lockfile nextId hoistRootId depId k entry →
      (∀ j bundled, r = .placement j bundled → j = k) →
      (∃ e ∈ b'.entries k, (lockfile.dependency e).nameHash = (lockfile.dependency depId).nameHash ∧
        b'.folders.Right lockfile depId e) → b'.Satisfied lockfile nextId depId := by
    intro k entry hsome walk hplace hright
    refine ⟨fun hnone => absurd (resolution_none_of_settles hs hnone) hsome, fun p _ => .inr ?_⟩
    refine ⟨k, ?_, hright, fun j hj hjk hne e' he' hname => ?_⟩
    · exact hparent ▸ walk.ancestor
    · have hfind := walk.none_below hwf.parent_lt (hparent ▸ hj) (hparent ▸ hjk) hne
      have hnone := find_none.mp hfind
      rcases hs.entries j e' he' with hold | ⟨-, ⟨bundled, hr⟩ | ⟨e, he, -, hename, -⟩⟩
      · exact absurd hname (hnone e' hold)
      · exact absurd (hplace j bundled hr) hne
      · exact absurd hename (hnone e he)
  cases place with
  | bundled _ => exact hown (hplaced _ _ rfl hnext)
  | folder _ _ => exact hown (hplaced _ _ rfl hnext)
  | conflict _ _ _ _ _ _ => exact hown (hplaced _ _ rfl hnext)
  | later hb _ _ hp => exact hopen hb hp
  | resolve hb _ _ hp => exact hopen hb hp
  | free hb walk =>
    rcases hres : b.resolution depId with _ | p
    · exact hopen hb hres
    · refine habove _ none (by rw [hres]; exact Option.some_ne_none p) walk ?_ ?_
      · rintro j bundled ⟨⟩
        rfl
      · exact ⟨depId, hplaced _ _ rfl hfits, rfl, p, hs.resolved depId p hres,
          .inl (hs.resolved depId p hres)⟩
  | replace walk he hp =>
    refine habove _ _ (by rw [hp]; exact Option.some_ne_none _) walk (fun j bundled hr => by cases hr) ?_
    refine ⟨depId, ?_, rfl, _, hs.resolved depId _ hp, .inl (hs.resolved depId _ hp)⟩
    rw [hb', hp, entries_settle_replace, if_pos rfl]
    exact List.mem_map.mpr ⟨_, hfits.1, if_pos rfl⟩
  | same walk he hp =>
    refine habove _ _ (by rw [hp]; exact Option.some_ne_none _) walk (fun j bundled hr => by cases hr) ?_
    obtain ⟨hmem, hname⟩ := find_some walk.answer
    exact ⟨_, hmem, hname, _, he, .inl hp⟩
  | accepted walk he hp h =>
    refine habove _ _ (by rw [hp]; exact Option.some_ne_none _) walk (fun j bundled hr => by cases hr) ?_
    obtain ⟨hmem, hname⟩ := find_some walk.answer
    exact ⟨_, hmem, hname, _, he, .inr h⟩
  | own walk _ =>
    obtain ⟨hmem, hname⟩ := find_some walk.answer
    exact absurd hname (hnew _ hmem)

/-! ### One folder -/

theorem Rooted.mono (hres : ∀ d p, b.resolution d = some p → b'.resolution d = some p)
    (hpkg : ∀ i p, b.treePackage i = some p → b'.treePackage i = some p)
    (h : b.Rooted lockfile hoistRootId pkg) : b'.Rooted lockfile hoistRootId pkg := by
  intro i hi
  obtain ⟨p, hp, hneeded⟩ := h i hi
  refine ⟨p, hpkg i p hp, Folders.NeededBundled.mono ?_ hneeded⟩
  exact hres

/-- A dependency of a package is needed by whatever needs the package. -/
theorem Rooted.dependency {pkg q : PackageID}
    (h : b.Rooted lockfile hoistRootId pkg) (hdep : depId ∈ (lockfile.resolutionList pkg).indices)
    (hq : b.resolution depId = some q) : b.Rooted lockfile hoistRootId q := by
  intro i hi
  obtain ⟨p, hp, d, hd, hb, q₀, hq₀, hreach⟩ := h i hi
  exact ⟨p, hp, d, hd, hb, q₀, hq₀, hreach.tail ⟨depId, hdep, hq⟩⟩

/-- The queue after a dependency was settled. -/
theorem queue_settle {pkgId : Option PackageID} {item : FillItem}
    (h : item ∈ (b.settle lockfile hoistRootId pkgId depId r).queue) :
    item ∈ b.queue ∨ item.dependencyId = depId ∧ (∃ q, pkgId = some q) ∧
      (item.hoistRootId = hoistRootId ∨ ∃ k, r = .placement k true ∧ item.hoistRootId = some k) := by
  have henqueue : ∀ (b₁ : Builder) (i : FillItem), b₁.queue = b.queue → i.dependencyId = depId →
      (i.hoistRootId = hoistRootId ∨ ∃ k, r = .placement k true ∧ i.hoistRootId = some k) →
      item ∈ (b₁.enqueue lockfile pkgId i).queue → item ∈ b.queue ∨ item.dependencyId = depId ∧
        (∃ q, pkgId = some q) ∧
        (item.hoistRootId = hoistRootId ∨ ∃ k, r = .placement k true ∧ item.hoistRootId = some k) := by
    intro b₁ i hb₁ hid hroot hmem
    rcases enqueue_queue lockfile b₁ pkgId i with hq | ⟨hpkg, hq⟩
    · exact .inl (hb₁ ▸ hq ▸ hmem)
    · rw [hq, hb₁] at hmem
      rcases List.mem_append.mp hmem with hmem | hmem
      · exact .inl hmem
      · rw [List.mem_singleton.mp hmem]
        exact .inr ⟨hid, hpkg, hroot⟩
  cases r with
  | dependencyLoop => exact .inl h
  | hoisted => exact .inl h
  | resolve res => exact .inl (resolvePending_queue b .. ▸ h)
  | resolveLater => exact .inl h
  | resolveReplace k entry =>
    cases pkgId with
    | none => exact .inl h
    | some pkg =>
      exact henqueue (b.replace (lockfile.dependency depId).nameHash k entry depId pkg)
        ⟨k, depId, hoistRootId⟩ (resolvePending_queue b ..) rfl (.inl rfl) h
  | placement k bundled =>
    refine henqueue (b.pushEntry k depId) ⟨k, depId, if bundled then some k else hoistRootId⟩ rfl rfl ?_ h
    cases bundled with
    | true => exact .inr ⟨k, rfl, rfl⟩
    | false => exact .inl rfl

/-- Between two turns of the loop over a package's dependencies. -/
structure Serving (lockfile : Lockfile) (nextId : Nat) (pkg : PackageID) (hoistRootId : Option Nat)
    (done : List DependencyID) (b : Builder) : Prop where
  filling : b.Filling lockfile nextId done
  tracked : b.Tracked lockfile
  package : b.treePackage nextId = some pkg
  rooted : b.Rooted lockfile hoistRootId pkg
  root_ne : hoistRootId ≠ some nextId
  items : ∀ item ∈ b.queue, ∀ q, b.resolution item.dependencyId = some q →
    b.Rooted lockfile item.hoistRootId q
  /-- The new folder is a hoist root only for what is in it. -/
  items_own : ∀ item ∈ b.queue, item.hoistRootId = some nextId → b.entries nextId ≠ []
  older : ∀ i p d, i < nextId → b.treePackage i = some p → d ∈ (lockfile.resolutionList p).indices →
    lockfile.SafeName d → b.Satisfied lockfile i d
  own : ∀ d ∈ done, lockfile.SafeName d → b.Satisfied lockfile nextId d

theorem treePackage_settle (hs : b.Settles lockfile b' depId r) (i : Nat) (p : PackageID) (h : b.treePackage i = some p) :
    b'.treePackage i = some p :=
  treePackage_mono hs.resolved (fun t ht => by rw [hs.shape]; exact ht) h

/-- The package of an earlier folder does not change. -/
theorem treePackage_of_settle (hwf : b.WellFormed lockfile) (hs : b.Settles lockfile b' depId r) {p : PackageID}
    (h : b'.treePackage i = some p) : b.treePackage i = some p := by
  obtain ⟨t, ht, hp⟩ := Option.bind_eq_some_iff.mp h
  rw [hs.shape] at ht
  refine Option.bind_eq_some_iff.mpr ⟨t, ht, ?_⟩
  rcases hwf.linked i t ht with ⟨-, -, hdep⟩ | ⟨-, d, -, -, hdep, -, hsome⟩
  · rw [hdep] at hp ⊢
    exact hp
  · rw [hdep] at hp ⊢
    obtain ⟨q, hq⟩ := Option.isSome_iff_exists.mp hsome
    have hq' : b'.packageOf (some d) = some q := hs.resolved d q hq
    rw [hq'] at hp
    exact hp ▸ hq

/-- What `processDependency` leaves out needs no place. -/
theorem satisfied_leftOut {d : DependencyID} (hsafe : lockfile.SafeName d)
    (h : leftOut lockfile .resolvable pkg d (b.resolution d) = true) : b.Satisfied lockfile i d := by
  have hname : (!(lockfile.dependency d).name.isEmpty &&
      !isSafeInstallFolderName (lockfile.dependency d).name) = false := by
    rcases hsafe with hsafe | hsafe <;> simp [hsafe]
  simp only [leftOut, BuilderMethod.skips, hname, Bool.false_or, Bool.and_eq_true, Bool.not_eq_true',
    Option.isNone_iff_eq_none] at h
  obtain ⟨⟨hb, hnone⟩, -⟩ := h
  constructor
  · intro _ hb'
    rw [hb] at hb'
    cases hb'
  · intro p hp
    rw [hnone] at hp
    cases hp

section Step
variable {nextId : Nat} {pkg : PackageID} {hoistRootId : Option Nat} {done rest : List DependencyID}
  {depId : DependencyID} {r : HoistDependencyResult}

/-- A dependency that is left out changes nothing. -/
theorem Serving.leave (h : b.Serving lockfile nextId pkg hoistRootId done) {log : List (List UInt8)}
    (hfilling : Filling lockfile nextId (done ++ [depId]) {b with log := log})
    (hout : leftOut lockfile .resolvable pkg depId (b.resolution depId) = true) :
    Serving lockfile nextId pkg hoistRootId (done ++ [depId]) {b with log := log} := by
  refine
    { filling := hfilling
      tracked := ⟨h.tracked.input, h.tracked.late, h.tracked.entries, h.tracked.pending⟩
      package := h.package
      rooted := h.rooted
      root_ne := h.root_ne
      items := h.items
      items_own := h.items_own
      older := fun i p d hi hp hd hsafe =>
        have hold := h.older i p d hi hp hd hsafe
        ⟨hold.waiting, hold.resolved⟩
      own := fun d hd hsafe => ?_ }
  rcases List.mem_append.mp hd with hd | hd
  · have hold := h.own d hd hsafe
    exact ⟨hold.waiting, hold.resolved⟩
  · obtain rfl := List.mem_singleton.mp hd
    have hleft : b.Satisfied lockfile nextId d := satisfied_leftOut hsafe hout
    exact ⟨hleft.waiting, hleft.resolved⟩

/-- A placement above the new folder is at the root or at the hoist root. -/
theorem Rooted.top (hrooted : b'.Rooted lockfile hoistRootId pkg) (hindices : depId ∈ (lockfile.resolutionList pkg).indices)
    (place : b.Place lockfile nextId hoistRootId (b.resolution depId) depId r) {j : Nat} {bundled : Bool}
    (hr : r = .placement j bundled) (hj : j ≠ nextId) :
    b.parent j = none ∨ b'.folders.Bundles lockfile j depId := by
  cases place with
  | free _ walk =>
    cases hr
    exact walk.stop.imp_right (hrooted.bundles hindices)
  | own _ hown => rcases hown with rfl | rfl <;> cases hr
  | bundled | folder | conflict =>
    cases hr
    exact absurd rfl hj
  | later | replace | resolve | same | accepted => cases hr

/-- What waits in the queue is needed by a bundled dependency of its hoist root. -/
theorem Serving.rooted_item (h : b.Serving lockfile nextId pkg hoistRootId done)
    (hindices : depId ∈ (lockfile.resolutionList pkg).indices)
    (place : b.Place lockfile nextId hoistRootId (b.resolution depId) depId r)
    (hs : b.Settles lockfile (b.settle lockfile hoistRootId (b.resolution depId) depId r) depId r) {item : FillItem}
    (hitem : item ∈ (b.settle lockfile hoistRootId (b.resolution depId) depId r).queue) {q : PackageID}
    (hq : (b.settle lockfile hoistRootId (b.resolution depId) depId r).resolution item.dependencyId = some q) :
    (b.settle lockfile hoistRootId (b.resolution depId) depId r).Rooted lockfile item.hoistRootId q := by
  have hrooted := h.rooted.mono hs.resolved (treePackage_settle hs)
  rcases queue_settle hitem with hold | ⟨hid, ⟨q', hq'⟩, hroot⟩
  · obtain ⟨q', hq'⟩ := Option.isSome_iff_exists.mp (h.filling.wellFormed.items item hold).2
    have hqq : q' = q := Option.some.inj ((hs.resolved _ _ hq').symm.trans hq)
    exact (h.items item hold q (hqq ▸ hq')).mono hs.resolved (treePackage_settle hs)
  · have hq₀ := hs.resolved _ _ hq'
    rw [hid, hq₀] at hq
    obtain rfl := Option.some.inj hq
    rcases hroot with hroot | ⟨k, hr, hroot⟩
    · rw [hroot]
      exact hrooted.dependency hindices hq₀
    · intro i hi
      rw [hroot] at hi
      obtain rfl := Option.some.inj hi
      cases place with
      | bundled hbundled =>
        cases hr
        exact ⟨pkg, treePackage_settle hs _ _ h.package, depId, hindices, hbundled, q', hq₀, .refl⟩
      | own _ hown => rcases hown with rfl | rfl <;> cases hr
      | free | folder | conflict | later | replace | resolve | same | accepted => cases hr

/-- Nor is the new folder a hoist root now, unless something is in it. -/
theorem Serving.own_item (h : b.Serving lockfile nextId pkg hoistRootId done) (hnext : nextId < b.list.length)
    (hfits : b.Fits lockfile depId r) {item : FillItem}
    (hitem : item ∈ (b.settle lockfile hoistRootId (b.resolution depId) depId r).queue)
    (hroot : item.hoistRootId = some nextId) :
    (b.settle lockfile hoistRootId (b.resolution depId) depId r).entries nextId ≠ [] := by
  have hwf := h.filling.wellFormed
  rcases queue_settle hitem with hold | ⟨-, -, hsame | ⟨k, hr, hk⟩⟩
  · exact entries_settle_ne_nil hwf hoistRootId hfits (h.items_own item hold hroot)
  · exact absurd (hsame.symm.trans hroot) h.root_ne
  · rw [hk] at hroot
    obtain rfl := Option.some.inj hroot
    rw [hr, entries_settle_placement hwf hnext, if_pos rfl]
    exact List.append_ne_nil_of_right_ne_nil _ (List.cons_ne_nil _ _)

theorem Serving.step (hnames : lockfile.DistinctNames) (h : b.Serving lockfile nextId pkg hoistRootId done)
    (hl : lockfile.sortedDependencies pkg = done ++ depId :: rest)
    (hb : processDependency lockfile .resolvable pkg nextId hoistRootId b depId = some (.ok b')) :
    b'.Serving lockfile nextId pkg hoistRootId (done ++ [depId]) := by
  have hwf := h.filling.wellFormed
  have hnext : nextId < b.list.length := by
    have := h.filling.length
    omega
  have hmem : depId ∈ lockfile.sortedDependencies pkg := hl ▸ List.mem_append_right _ List.mem_cons_self
  have hdeps := sortedDependencies_lt pkg hmem
  have hfilling := h.filling.step hdeps hb
  rcases processDependency_cases hwf.parent_lt hnext hb with ⟨hout, log, rfl⟩ | ⟨hin, r, place, rfl⟩
  · exact h.leave hfilling hout
  · have hdep : depId < b.resolutions.length := hwf.resolutions ▸ hdeps
    have hindices := mem_sortedDependencies.mp hmem
    have hfits := place.fits hwf hnext
    have hs := settles hwf hoistRootId hdep hfits
    have hwait : b.resolution depId = none → lockfile.MayWait depId := by
      intro hnone
      simp only [leftOut, BuilderMethod.skips, hnone, Option.isNone_none, Bool.or_eq_false_iff] at hin
      simpa [Lockfile.MayWait, or_iff_not_imp_left] using hin.2
    have hlater : r = .resolveLater → (lockfile.dependency depId).behavior.isOptionalPeer = true := by
      intro hr
      cases place with
      | later hbundled _ _ hp => exact (hwait hp).resolve_left (by simp [hbundled])
      | own _ hown => rcases hown with rfl | rfl <;> cases hr
      | bundled | folder | free | replace | resolve | same | accepted | conflict => cases hr
    have htracked := h.tracked.settle hs hwait hlater
    have hrooted : Rooted lockfile _ hoistRootId pkg := h.rooted.mono hs.resolved (treePackage_settle hs)
    refine
      { filling := hfilling
        tracked := htracked
        package := treePackage_settle hs _ _ h.package
        rooted := hrooted
        root_ne := h.root_ne
        items := fun item hitem q hq => h.rooted_item hindices place hs hitem hq
        items_own := fun item hitem hroot => h.own_item hnext hfits hitem hroot
        older := fun i p d hi hp hd hsafe => ?_
        own := fun d hd hsafe => ?_ }
    · refine (h.older i p d hi (treePackage_of_settle hwf hs hp) hd hsafe).settle hwf h.tracked htracked hs ?_
      intro j bundled hr hj _
      have hle := ancestor_le hwf.parent_lt hj
      exact hrooted.top hindices place hr (by omega)
    · rcases List.mem_append.mp hd with hd | hd
      · refine (h.own d hd hsafe).settle hwf h.tracked htracked hs ?_
        intro j bundled hr hj hname
        exact absurd hname (name_ne_of_done hnames hl hd)
      · obtain rfl := List.mem_singleton.mp hd
        exact place.satisfied hwf hnext h.tracked hdep hwait fun d' hd' =>
          name_ne_of_done hnames hl (h.filling.own d' hd')

end Step

/-! ### Every folder -/

/-- Between two turns of the loop over the queue. -/
structure Sound (lockfile : Lockfile) (b : Builder) : Prop where
  wellFormed : b.WellFormed lockfile
  distinct : b.DistinctEntries lockfile
  tracked : b.Tracked lockfile
  items : ∀ item ∈ b.queue, ∀ q, b.resolution item.dependencyId = some q →
    b.Rooted lockfile item.hoistRootId q
  satisfied : ∀ i p d, b.treePackage i = some p → d ∈ (lockfile.resolutionList p).indices →
    lockfile.SafeName d → b.Satisfied lockfile i d

/-- Making or dropping an empty folder changes nothing for the others. -/
theorem Satisfied.frame (hentries : b'.entries = b.entries) (hres : b'.resolution = b.resolution)
    (hshape : ∀ x, Ancestor b.parent i x → b'.shape[x]? = b.shape[x]?) {d : DependencyID}
    (h : b.Satisfied lockfile i d) : b'.Satisfied lockfile i d := by
  constructor
  · intro hnone hb
    rw [hentries]
    exact h.waiting (hres ▸ hnone) hb
  · intro p hp
    refine (h.resolved p (hres ▸ hp)).imp id fun hold => ?_
    refine Folders.Resolves.mono (f := b.folders) (fun x hx => parent_congr (hshape x hx)) ?_ ?_ ?_ hold
    · intro d p hd
      change b'.resolution d = some p
      rw [hres]
      exact hd
    · intro k e he _
      change e ∈ b'.entries k
      rw [hentries]
      exact he
    · intro j hj e he hname
      change e ∈ b'.entries j at he
      rw [hentries] at he
      refine .inr (.inr ⟨e, he, hname, .mono (fun d p hd => ?_) fun q hq => ?_⟩)
      · change b'.resolution d = some p
        rw [hres]
        exact hd
      · exact treePackage_mono (fun d p hd => hres ▸ hd) (fun t ht => hshape j hj ▸ ht) hq

theorem shape_lt {p : PackageID} (h : b.treePackage i = some p) : i < b.list.length := by
  obtain ⟨t, ht, -⟩ := Option.bind_eq_some_iff.mp h
  rw [← length_shape]
  exact (List.getElem?_eq_some_iff.mp ht).1

theorem getElem?_shape_pushTree (self : Option Nat) (dependencyId : Option DependencyID)
    (hi : i < b.list.length) : (b.pushTree self dependencyId).shape[i]? = b.shape[i]? := by
  rw [shape_pushTree, List.getElem?_append_left (by rwa [length_shape])]

theorem treePackage_pushTree (self : Option Nat) (dependencyId : Option DependencyID)
    (hi : i < b.list.length) : (b.pushTree self dependencyId).treePackage i = b.treePackage i := by
  rw [treePackage, getElem?_shape_pushTree self dependencyId hi]
  rfl

theorem Sound.serving (h : b.Sound lockfile) {self : Option Nat} {dependencyId : Option DependencyID}
    (hlink : b.Linked b.list.length ⟨b.list.length, dependencyId, self, ⟨0, 0⟩⟩)
    (hpkg : b.packageOf dependencyId = some pkg) (hroot : b.Rooted lockfile hoistRootId pkg) :
    (b.pushTree self dependencyId).Serving lockfile b.list.length pkg hoistRootId [] := by
  have hmono : ∀ i p, b.treePackage i = some p → (b.pushTree self dependencyId).treePackage i = some p :=
    fun i p hp => (treePackage_pushTree self dependencyId (shape_lt hp)).trans hp
  have hres : ∀ d p, b.resolution d = some p → (b.pushTree self dependencyId).resolution d = some p :=
    fun _ _ hd => hd
  exact
    { filling := filling_pushTree h.wellFormed hlink
      tracked := ⟨h.tracked.input, h.tracked.late,
        fun t d hd => h.tracked.entries t d (entries_pushTree (b := b) .. ▸ hd), h.tracked.pending⟩
      package := by
        rw [treePackage, shape_pushTree, ← length_shape, List.getElem?_concat_length]
        exact hpkg
      rooted := hroot.mono hres hmono
      root_ne := fun hself => by
        obtain ⟨p, hp, -⟩ := hroot b.list.length hself
        exact absurd (shape_lt hp) (lt_irrefl _)
      items := fun item hitem q hq => (h.items item hitem q hq).mono hres hmono
      items_own := fun item hitem hself => by
        obtain ⟨q, hq⟩ := Option.isSome_iff_exists.mp (h.wellFormed.items item hitem).2
        obtain ⟨p, hp, -⟩ := h.items item hitem q hq b.list.length hself
        exact absurd (shape_lt hp) (lt_irrefl _)
      older := fun i p d hi hp hd hsafe => by
        rw [treePackage_pushTree self dependencyId hi] at hp
        refine (h.satisfied i p d hp hd hsafe).frame (entries_pushTree ..) rfl fun x hx => ?_
        have hle := ancestor_le h.wellFormed.parent_lt hx
        exact getElem?_shape_pushTree self dependencyId (by omega)
      own := fun d hd => absurd hd List.not_mem_nil }

theorem Serving.sound {nextId : Nat} (h : b.Serving lockfile nextId pkg hoistRootId (lockfile.sortedDependencies pkg))
    (hd : b.DistinctEntries lockfile) : (b.popEmpty nextId).Sound lockfile := by
  have hwf := h.filling.wellFormed
  have hsat : ∀ i p d, b.treePackage i = some p → d ∈ (lockfile.resolutionList p).indices →
      lockfile.SafeName d → b.Satisfied lockfile i d := by
    intro i p d hp hdep hsafe
    have hlt := shape_lt hp
    have hlen := h.filling.length
    rcases Nat.lt_or_ge i nextId with hi | hi
    · exact h.older i p d hi hp hdep hsafe
    · obtain rfl : i = nextId := by omega
      rw [h.package] at hp
      obtain rfl := Option.some.inj hp
      exact h.own d (mem_sortedDependencies.mpr hdep) hsafe
  rcases popEmpty_cases hwf.aligned h.filling.length with ⟨-, hpop⟩ | ⟨hnil, hpop⟩
  · rw [hpop]
    exact ⟨hwf, hd, h.tracked, h.items, hsat⟩
  have hentries := entries_dropLast h.filling.length hnil
  have hshape : ∀ i, i < nextId → {b with list := b.list.dropLast}.shape[i]? = b.shape[i]? := by
    intro i hi
    have hlen := h.filling.length
    rw [shape, List.map_dropLast, List.getElem?_dropLast, if_pos]
    · rfl
    · rw [List.length_map]
      omega
  have hpkg : ∀ i, i < nextId → {b with list := b.list.dropLast}.treePackage i = b.treePackage i := by
    intro i hi
    rw [treePackage, hshape i hi]
    rfl
  have hsmall : ∀ i p, {b with list := b.list.dropLast}.treePackage i = some p → i < nextId := by
    intro i p hp
    have hlt := shape_lt hp
    have hlen := h.filling.length
    rw [List.length_dropLast] at hlt
    omega
  have hpopped := hwf.popEmpty h.filling.length
  rw [hpop] at hpopped ⊢
  exact
    { wellFormed := hpopped
      distinct := fun i => by rw [hentries]; exact hd i
      tracked := ⟨h.tracked.input, h.tracked.late,
        fun t d hd => h.tracked.entries t d (hentries ▸ hd), h.tracked.pending⟩
      items := fun item hitem q hq i hi => by
        obtain ⟨p, hp, hneeded⟩ := h.items item hitem q hq i hi
        have hlt := shape_lt hp
        have hlen := h.filling.length
        have hne : i ≠ nextId := by
          rintro rfl
          exact h.items_own item hitem hi hnil
        exact ⟨p, (hpkg i (by omega)).trans hp, hneeded⟩
      satisfied := fun i p d hp hdep hsafe => by
        have hi := hsmall i p hp
        rw [hpkg i hi] at hp
        refine (hsat i p d hp hdep hsafe).frame hentries rfl fun x hx => ?_
        have hle := ancestor_le hwf.parent_lt hx
        exact hshape x (by omega) }

/-- One subtree. -/
theorem Sound.processSubtree (hnames : lockfile.DistinctNames) (h : b.Sound lockfile) {self : Option Nat}
    {dependencyId : Option DependencyID} (hlink : b.Linked b.list.length ⟨b.list.length, dependencyId, self, ⟨0, 0⟩⟩)
    (hroot : ∀ pkg, b.packageOf dependencyId = some pkg → b.Rooted lockfile hoistRootId pkg)
    (hb : processSubtree lockfile .resolvable self dependencyId hoistRootId b = some (.ok b')) :
    b'.Sound lockfile := by
  have hd' := DistinctEntries.processSubtree hnames h.wellFormed h.distinct hlink hb
  rcases processSubtree_cases hb with ⟨rfl, -⟩ | ⟨pkg, b₁, hpkg, hb₁, rfl⟩
  · exact h
  have hserving := Run.foldlM_ok
    (fun done s => s.Serving lockfile b.list.length pkg hoistRootId done) _
    (fun done d rest s s' hl hs hstep => hs.step hnames hl hstep)
    (h.serving hlink hpkg (hroot pkg hpkg)) hb₁
  refine hserving.sound fun i => ?_
  have hi := hd' i
  rwa [entries_popEmpty hserving.filling.wellFormed.aligned hserving.filling.length] at hi

theorem Sound.processItem (hnames : lockfile.DistinctNames) (h : b.Sound lockfile) {item : FillItem}
    {queue : List FillItem} (hq : b.queue = item :: queue)
    (hb : processItem lockfile .resolvable b item queue = some (.ok b')) : b'.Sound lockfile := by
  have hmem : item ∈ b.queue := hq ▸ List.mem_cons_self
  have hdequeue : {b with queue := queue}.Sound lockfile :=
    { wellFormed := h.wellFormed.dequeue hq
      distinct := h.distinct
      tracked := ⟨h.tracked.input, h.tracked.late, h.tracked.entries, h.tracked.pending⟩
      items := fun i hi => h.items i (hq ▸ List.mem_cons_of_mem _ hi)
      satisfied := fun i p d hp hd hsafe =>
        have hold := h.satisfied i p d hp hd hsafe
        ⟨hold.waiting, hold.resolved⟩ }
  exact hdequeue.processSubtree hnames (h.wellFormed.linked_item hmem queue) (h.items item hmem) hb

theorem sound_init : (init lockfile).Sound lockfile where
  wellFormed := wellFormed_init
  distinct i := by simp [entries, init]
  tracked :=
    { input := fun d p hd => hd
      late := fun d p hd hd' => by
        change lockfile.resolution d = some p at hd'
        rw [hd] at hd'
        cases hd'
      entries := fun t d hd => by simp [entries, init] at hd
      pending := fun hash => List.forall_mem_nil _ }
  items := List.forall_mem_nil _
  satisfied i p d hp := by simp [treePackage, shape, init] at hp

end Builder

/-! ### The buffers -/

namespace Buffers

/-- The package a tree is made for. -/
def package (buffers : Buffers) (i : Nat) : Option PackageID :=
  (buffers.trees[i]?).bind fun t =>
    match t.dependencyId with
    | none => some 0
    | some d => buffers.resolution d

def folders (buffers : Buffers) : Folders :=
  ⟨buffers.parent, buffers.folder, buffers.package, buffers.resolution⟩

variable {lockfile : Lockfile} {b : Builder}

theorem package_clean {i : Nat} {p : PackageID} : b.clean.package i = some p ↔ b.treePackage i = some p := by
  rw [package, Builder.clean_trees, Builder.treePackage, Builder.shape, List.getElem?_map]
  rcases b.list[i]? with _ | e
  · rfl
  · rcases hdep : e.tree.dependencyId with _ | d
    · simp [hdep, Builder.packageOf]
    · simp [hdep, Builder.packageOf, Builder.clean_resolution]

/-- Dropping the unresolved entries changes nothing for what was found. -/
theorem resolves_clean (h : b.Aligned) {i : Nat} {d : DependencyID} (hd : b.folders.Resolves lockfile i d) :
    b.clean.folders.Resolves lockfile i d := by
  have hres : ∀ d p, b.resolution d = some p → b.clean.resolution d = some p :=
    fun d p hd => (b.clean_resolution d).trans hd
  refine Folders.Resolves.mono (f := b.folders) (fun x _ => b.clean_parent x) hres ?_ ?_ hd
  · intro k e he hsome
    exact Builder.mem_clean_folder h ⟨he, hsome⟩
  · intro j _ e he hname
    refine .inr (.inr ⟨e, ?_, hname, .mono hres fun p hp => package_clean.mpr hp⟩)
    change e ∈ b.clean.folder j at he
    change e ∈ b.entries j
    rcases hj : b.list[j]? with _ | entry
    · simp [Buffers.folder, Builder.clean_trees, hj] at he
    · rw [Builder.clean_folder b hj] at he
      rw [Builder.entries_eq h hj]
      exact (List.mem_filter.mp he).1

end Buffers

section Hoist
variable {lockfile : Lockfile}

/-- **Every dependency of every folder's package finds its package**: the first folder with
its name has an entry of the package it resolved to, or one it accepts as a peer, unless
the entry is there for a package needed by bundled dependencies of the folder's package;
the right entry is then further up. -/
theorem hoist_resolves (hnames : lockfile.DistinctNames) {fuel : Nat} {buffers : Buffers}
    (h : hoist lockfile .resolvable fuel = some (.ok buffers)) {i : Nat} {p q : PackageID}
    {d : DependencyID} (hi : buffers.package i = some p) (hd : d ∈ (lockfile.resolutionList p).indices)
    (hq : buffers.resolution d = some q) (hsafe : lockfile.SafeName d)
    (hinput : (lockfile.dependency d).behavior.isOptionalPeer = true → lockfile.resolution d ≠ none) :
    (∃ k e, Lookup buffers.parent none (buffers.folders.find lockfile · (lockfile.dependency d).nameHash) i k
        (some e) ∧ (buffers.folders.Right lockfile d e ∨ buffers.folders.Bundles lockfile k e)) ∧
      buffers.folders.Resolves lockfile i d := by
  obtain ⟨b, hsound, -, rfl⟩ := hoist_ok (fun b => b.Sound lockfile)
    (fun b hb => Builder.sound_init.processSubtree hnames Builder.linked_root
      (fun pkg _ h hroot => by cases hroot) hb)
    (fun b item queue b' hq hb hb' => hb.processItem hnames hq hb') h
  have hsat := hsound.satisfied i p d (Buffers.package_clean.mp hi) hd hsafe
  have hresolves : b.folders.Resolves lockfile i d := by
    rcases hsat.resolved q ((b.clean_resolution d).symm.trans hq) with ⟨hpeer, hnone⟩ | hresolves
    · exact absurd hnone (hinput hpeer)
    · exact hresolves
  have hclean := Buffers.resolves_clean hsound.wellFormed.aligned hresolves
  exact ⟨hclean.first (hsound.wellFormed.clean_names hsound.distinct), hclean⟩

end Hoist

theorem hoist_resolves_nested :
    (∃ k e, Lookup nestedBuffers.parent none
        (nestedBuffers.folders.find nestedLockfile · (nestedLockfile.dependency 2).nameHash) 1 k (some e) ∧
        (nestedBuffers.folders.Right nestedLockfile 2 e ∨ nestedBuffers.folders.Bundles nestedLockfile k e)) ∧
      nestedBuffers.folders.Resolves nestedLockfile 1 2 :=
  hoist_resolves nestedLockfile_distinctNames hoist_nestedLockfile (p := 1) (q := 3) rfl (by decide) rfl
    (.inr (by decide)) (by decide)

/-! ### Two dependencies that do not find their package -/

/-- The root needs a package under a name that leaves its folder. -/
def unsafeLockfile : Lockfile where
  packages := [⟨[], .root, ⟨0, 2⟩, ⟨0, 2⟩⟩, npmPackage 97 2 0, npmPackage 98 2 0]
  dependencies := [prodDependency 97, {prodDependency 98 with name := [46, 46]}]
  resolutions := [some 1, some 2]
  satisfies _ _ := false
  packages_nonempty := by decide
  resolutions_length := by decide
  resolutions_valid := by decide
  slices_valid := by decide

def unsafeBuffers : Buffers := ⟨[⟨0, none, none, ⟨0, 1⟩⟩], [0], [some 1, some 2]⟩

/-- The root needs `q` and `x`; `q` needs the same `x` and bundles `b`, which needs another. -/
def bundledLockfile : Lockfile where
  packages := [⟨[], .root, ⟨0, 2⟩, ⟨0, 2⟩⟩, npmPackage 120 2 0, npmPackage 113 2 2, npmPackage 98 4 1,
    npmPackage 120 5 0]
  dependencies := [prodDependency 120, prodDependency 113,
    {prodDependency 98 with behavior := ⟨true, false, false, false, false, true⟩}, prodDependency 120,
    prodDependency 120]
  resolutions := [some 1, some 2, some 3, some 1, some 4]
  satisfies _ _ := false
  packages_nonempty := by decide
  resolutions_length := by decide
  resolutions_valid := by decide
  slices_valid := by decide

def bundledBuffers : Buffers where
  trees := [⟨0, none, none, ⟨0, 2⟩⟩, ⟨1, some 1, some 0, ⟨2, 2⟩⟩]
  hoistedDependencies := [1, 0, 2, 4]
  resolutions := [some 1, some 2, some 3, some 1, some 4]

/-- A dependency under an unsafe name is in no folder, and what a bundled dependency needs
hides what the package that bundles it needs. -/
theorem hoist_misses_package :
    (unsafeLockfile.DistinctNames ∧ hoist unsafeLockfile .resolvable 2 = some (.ok unsafeBuffers) ∧
      unsafeBuffers.package 0 = some 0 ∧ 1 ∈ (unsafeLockfile.resolutionList 0).indices ∧
      unsafeBuffers.resolution 1 = some 2 ∧
      ¬ ∃ k e, Lookup unsafeBuffers.parent none
        (unsafeBuffers.folders.find unsafeLockfile · (unsafeLockfile.dependency 1).nameHash) 0 k (some e)) ∧
    (bundledLockfile.DistinctNames ∧ hoist bundledLockfile .resolvable 3 = some (.ok bundledBuffers) ∧
      bundledBuffers.package 1 = some 2 ∧ 3 ∈ (bundledLockfile.resolutionList 2).indices ∧
      bundledBuffers.resolution 3 = some 1 ∧
      ¬ ∃ k e, Lookup bundledBuffers.parent none
        (bundledBuffers.folders.find bundledLockfile · (bundledLockfile.dependency 3).nameHash) 1 k (some e) ∧
        (bundledBuffers.folders.Right bundledLockfile 3 e ∨
          (bundledLockfile.dependency e).behavior.dev ≠ (bundledLockfile.dependency 3).behavior.dev)) := by
  refine ⟨⟨by unfold Lockfile.DistinctNames; decide, rfl, rfl, by decide, rfl, ?_⟩,
    by unfold Lockfile.DistinctNames; decide, rfl, rfl, by decide, rfl, ?_⟩
  · intro h
    obtain ⟨k, e, walk⟩ := h
    have hnone := walk.unique (.missing rfl (.inl rfl))
    cases hnone.2
  · intro h
    obtain ⟨k, e, walk, hright⟩ := h
    obtain ⟨-, he⟩ := walk.unique (.found (a := 4) rfl)
    obtain rfl := Option.some.inj he
    rcases hright with ⟨r, hr, hright⟩ | hdev
    · obtain rfl : 4 = r := Option.some.inj hr
      revert hright
      decide
    · exact hdev rfl

end Funbun.Install
