import Funbun.Install.PackageIndex
import Funbun.Install.ResolutionOrder

/-! The index lists the packages of every name once, from the greatest resolution down. -/
namespace Funbun.Install.PackageIndex
open Semver Library.Descending Std

theorem eql_returns (r r' : Resolution) (h : r ≠ .uninitialized ∨ r' ≠ .uninitialized) (buf : List UInt8) :
    ∃ b, r.eql r' buf = some b := by
  cases r <;> cases r' <;> first | exact ⟨_, rfl⟩ | exact absurd rfl (h.elim id id)

namespace Lockfile

/-- The ids that are listed under a name -/
def idsOf (s : Lockfile) (nameHash : UInt64) : List Nat := (s.packageIndex nameHash).elim [] PackageIndexEntry.toList

/-- A package of a name -/
def IsOf (s : Lockfile) (nameHash : UInt64) (i : Nat) (package : Package) : Prop :=
  s.packages[i]? = some package ∧ package.nameHash = nameHash

theorem IsOf.resolutions_eq {s : Lockfile} {nameHash : UInt64} {i : Nat} {package : Package} (h : s.IsOf nameHash i package) :
    s.resolutions i = package.resolution := by
  rw [resolutions, h.1]
  rfl

/-- The ids of a name are its packages, each once, and no list is shorter than two. -/
structure Indexed (s : Lockfile) : Prop where
  nodup : ∀ nameHash, (s.idsOf nameHash).Nodup
  mem_iff : ∀ nameHash i, i ∈ s.idsOf nameHash ↔ ∃ package, s.IsOf nameHash i package
  entry : ∀ nameHash entry, s.packageIndex nameHash = some entry → entry.toList ≠ [] ∧
    ∀ ids, entry = .ids ids → 2 ≤ ids.length
  own_id : ∀ (i : Nat) (package : Package), s.packages[i]? = some package → package.id = i

/-- A package was put at the end, and its id in its place. -/
structure Inserted (s : Lockfile) (package : Package) (s' : Lockfile) : Prop where
  packages_eq : s'.packages = s.packages ++ [{package with id := s.packages.length}]
  stringBytes_eq : s'.stringBytes = s.stringBytes
  others : ∀ nameHash, nameHash ≠ package.nameHash → s'.packageIndex nameHash = s.packageIndex nameHash
  ids_eq : s'.idsOf package.nameHash =
    insertAbove (s'.isGreater package.resolution) s.packages.length (s.idsOf package.nameHash)
  entry : ∃ entry, s'.packageIndex package.nameHash = some entry ∧ ∀ ids, entry = .ids ids → s.idsOf package.nameHash ≠ []

/-! ### The three ways to append -/

section
variable {s : Lockfile} {package : Package}

variable {i : Nat} {nameHash : UInt64} {resolution : Resolution}

theorem inserted_setEntry {entry : PackageIndexEntry} (hi : i = s.packages.length)
    (hentry : ∀ ids, entry = .ids ids → s.idsOf package.nameHash ≠ [])
    (htoList : entry.toList = insertAbove ((s.append package i).isGreater package.resolution) i (s.idsOf package.nameHash)) :
    s.Inserted package ((s.append package i).setEntry package.nameHash entry) where
  packages_eq := by rw [setEntry, append, hi]
  stringBytes_eq := rfl
  others nameHash hne := Function.update_of_ne hne _ _
  ids_eq := by
    have hself : ((s.append package i).setEntry package.nameHash entry).packageIndex package.nameHash = some entry :=
      Function.update_self ..
    rw [idsOf, hself, ← hi]
    exact htoList
  entry := ⟨entry, Function.update_self .., hentry⟩

theorem inserted_none (hi : i = s.packages.length) (hnone : s.packageIndex package.nameHash = none) :
    s.Inserted package ((s.append package i).setEntry package.nameHash (.id i)) := by
  refine inserted_setEntry hi nofun ?_
  rw [idsOf, hnone]
  rfl

theorem inserted_pair {i existingId : Nat} (hi : i = s.packages.length)
    (hid : s.packageIndex package.nameHash = some (.id existingId)) :
    s.Inserted package ((s.append package i).setEntry package.nameHash
      (.ids ((s.append package i).pair package.resolution i existingId))) := by
  have hids : s.idsOf package.nameHash = [existingId] := by
    rw [idsOf, hid]
    rfl
  refine inserted_setEntry hi (fun _ _ => ?_) ?_
  · rw [hids]
    exact List.cons_ne_nil _ _
  · rw [hids]
    rfl

theorem inserted_ids {existingIds : List Nat} (hi : i = s.packages.length)
    (hids : s.packageIndex package.nameHash = some (.ids existingIds)) (hnil : existingIds ≠ []) :
    s.Inserted package ((s.append package i).setEntry package.nameHash
      (.ids (insertAbove ((s.append package i).isGreater package.resolution) i existingIds))) := by
  have heq : s.idsOf package.nameHash = existingIds := by
    rw [idsOf, hids]
    rfl
  refine inserted_setEntry hi (fun _ _ => ?_) ?_
  · rwa [heq]
  · rw [heq]
    rfl

theorem resolutions_append (i : Nat) (hi : i = s.packages.length) : (s.append package i).resolutions i = package.resolution := by
  rw [resolutions, append, hi, List.getElem?_concat_length]
  rfl

theorem getOrPutId_none (h : s.packageIndex nameHash = none) :
    s.getOrPutId i nameHash = s.setEntry nameHash (.id i) := by rw [getOrPutId, h]

theorem getOrPutId_id {i existingId : Nat} (h : s.packageIndex nameHash = some (.id existingId)) :
    s.getOrPutId i nameHash = s.setEntry nameHash (.ids (s.pair (s.resolutions i) i existingId)) := by rw [getOrPutId, h]

theorem getOrPutId_ids {existingIds : List Nat} (h : s.packageIndex nameHash = some (.ids existingIds)) :
    s.getOrPutId i nameHash = s.setEntry nameHash (.ids (insertAbove (s.isGreater (s.resolutions i)) i existingIds)) := by
  rw [getOrPutId, h]

theorem inserted_appendPackageWithId (h : s.Indexed) (hi : i = s.packages.length) :
    s.Inserted package (s.appendPackageWithId package i) := by
  rw [appendPackageWithId]
  cases hentry : s.packageIndex package.nameHash with
  | none =>
    rw [getOrPutId_none (s := s.append package i) hentry]
    exact inserted_none hi hentry
  | some entry =>
    cases entry with
    | id existingId =>
      rw [getOrPutId_id (s := s.append package i) hentry, resolutions_append i hi]
      exact inserted_pair hi hentry
    | ids existingIds =>
      rw [getOrPutId_ids (s := s.append package i) hentry, resolutions_append i hi]
      exact inserted_ids hi hentry (h.entry _ _ hentry).1

/-! ### Looking for an equal package -/

theorem findEql_spec (resolution : Resolution) (ids : List Nat) (found : Option Nat)
    (h : s.findEql resolution ids = some found) :
    (∀ i, found = some i → i ∈ ids ∧ resolution.eql (s.resolutions i) s.stringBytes = some true) ∧
      (found = none → ∀ i ∈ ids, resolution.eql (s.resolutions i) s.stringBytes = some false) := by
  induction ids with
  | nil =>
    cases h
    exact ⟨nofun, fun _ i hi => nomatch hi⟩
  | cons existingId rest ih =>
    obtain ⟨equal, hequal, hrest⟩ := Option.bind_eq_some_iff.mp h
    cases equal with
    | true =>
      cases hrest
      refine ⟨fun i hi => ?_, nofun⟩
      cases hi
      exact ⟨List.mem_cons_self, hequal⟩
    | false =>
      obtain ⟨hsome, hnone⟩ := ih hrest
      refine ⟨fun i hi => ⟨List.mem_cons_of_mem _ (hsome i hi).1, (hsome i hi).2⟩, fun hnot i hi => ?_⟩
      rcases List.mem_cons.mp hi with rfl | hi
      · exact hequal
      · exact hnone hnot i hi

theorem findEql_returns {ids : List Nat} (h : ∀ i ∈ ids, resolution ≠ .uninitialized ∨ s.resolutions i ≠ .uninitialized) :
    ∃ found, s.findEql resolution ids = some found := by
  induction ids with
  | nil => exact ⟨none, rfl⟩
  | cons existingId rest ih =>
    obtain ⟨equal, hequal⟩ := eql_returns _ _ (h existingId List.mem_cons_self) s.stringBytes
    obtain ⟨found, hfound⟩ := ih fun i hi => h i (List.mem_cons_of_mem _ hi)
    rw [findEql, hequal]
    cases equal with
    | true => exact ⟨some existingId, rfl⟩
    | false => exact ⟨found, hfound⟩

/-- What `append_package_dedupe` does. -/
def Deduped (s : Lockfile) (package : Package) (i : Nat) (s' : Lockfile) : Prop :=
  (s' = s ∧ i ∈ s.idsOf package.nameHash ∧ package.resolution.eql (s.resolutions i) s.stringBytes = some true) ∨
    (i = s.packages.length ∧ s.Inserted package s' ∧
      ∀ j ∈ s.idsOf package.nameHash, package.resolution.eql (s.resolutions j) s.stringBytes = some false)

theorem newId_eq (h : s.newId = some i) : i = s.packages.length := by
  rw [newId] at h
  split at h
  · exact (Option.some.inj h).symm
  · exact nomatch h

theorem deduped (h : s.Indexed) {s' : Lockfile} (hcall : s.appendPackageDedupe package = some (i, s')) :
    s.Deduped package i s' := by
  rw [appendPackageDedupe] at hcall
  split at hcall
  · rename_i hnone
    obtain ⟨newId, hnew, heq⟩ := Option.bind_eq_some_iff.mp hcall
    cases heq
    refine .inr ⟨newId_eq hnew, inserted_none (newId_eq hnew) hnone, fun j hj => ?_⟩
    rw [idsOf, hnone] at hj
    exact nomatch hj
  · rename_i existingId hid
    have hids : s.idsOf package.nameHash = [existingId] := by
      rw [idsOf, hid]
      rfl
    obtain ⟨equal, hequal, hrest⟩ := Option.bind_eq_some_iff.mp hcall
    cases equal with
    | true =>
      cases hrest
      refine .inl ⟨rfl, ?_, hequal⟩
      rw [hids]
      exact List.mem_cons_self
    | false =>
      obtain ⟨newId, hnew, heq⟩ := Option.bind_eq_some_iff.mp hrest
      cases heq
      refine .inr ⟨newId_eq hnew, inserted_pair (newId_eq hnew) hid, fun j hj => ?_⟩
      rw [hids] at hj
      rwa [List.mem_singleton.mp hj]
  · rename_i existingIds hentry
    have hids : s.idsOf package.nameHash = existingIds := by
      rw [idsOf, hentry]
      rfl
    obtain ⟨found, hfound, hrest⟩ := Option.bind_eq_some_iff.mp hcall
    obtain ⟨hsome, hnone⟩ := findEql_spec package.resolution existingIds found hfound
    cases found with
    | some existingId =>
      cases hrest
      refine .inl ⟨rfl, ?_, (hsome _ rfl).2⟩
      rw [hids]
      exact (hsome _ rfl).1
    | none =>
      obtain ⟨newId, hnew, heq⟩ := Option.bind_eq_some_iff.mp hrest
      cases heq
      refine .inr ⟨newId_eq hnew, inserted_ids (newId_eq hnew) hentry (h.entry _ _ hentry).1, fun j hj => ?_⟩
      rw [hids] at hj
      exact hnone rfl j hj

/-- Not a comparison of nothing with nothing -/
def Comparable (s : Lockfile) (nameHash : UInt64) (resolution : Resolution) : Prop :=
  resolution ≠ .uninitialized ∨ ∀ i package, s.IsOf nameHash i package → package.resolution ≠ .uninitialized

theorem Comparable.of_mem (h : s.Comparable nameHash resolution) (hs : s.Indexed) (hi : i ∈ s.idsOf nameHash) :
    resolution ≠ .uninitialized ∨ s.resolutions i ≠ .uninitialized := by
  obtain ⟨package, hpackage⟩ := (hs.mem_iff nameHash i).mp hi
  exact h.imp_right fun hall => hpackage.resolutions_eq ▸ hall i package hpackage

theorem appendPackageDedupe_returns (h : s.Indexed) (hcomparable : s.Comparable package.nameHash package.resolution)
    (hlength : s.packages.length < UInt32.size) : ∃ i s', s.appendPackageDedupe package = some (i, s') := by
  have hnew : s.newId = some s.packages.length := if_pos hlength
  have hor := fun i => hcomparable.of_mem h (i := i)
  rw [appendPackageDedupe]
  rw [idsOf] at hor
  split
  · rw [hnew]
    exact ⟨_, _, rfl⟩
  · rename_i existingId hentry
    rw [hentry] at hor
    obtain ⟨equal, hequal⟩ := eql_returns _ _ (hor existingId List.mem_cons_self) s.stringBytes
    rw [hequal, hnew]
    cases equal with
    | true => exact ⟨_, _, rfl⟩
    | false => exact ⟨_, _, rfl⟩
  · rename_i existingIds hentry
    rw [hentry] at hor
    obtain ⟨found, hfound⟩ : ∃ found, s.findEql package.resolution existingIds = some found := findEql_returns hor
    rw [hfound, hnew]
    cases found with
    | some existingId => exact ⟨_, _, rfl⟩
    | none => exact ⟨_, _, rfl⟩

/-! ### Lookups -/

theorem findId_spec {ids : List Nat}
    (h : ∀ i ∈ ids, resolution ≠ .uninitialized ∨ s.resolutions i ≠ .uninitialized) : ∃ found, s.findId none resolution ids = some found ∧
      (∀ i, found = some i → i ∈ ids ∧ (s.resolutions i).eql resolution s.stringBytes = some true) ∧
        (found = none → ∀ i ∈ ids, (s.resolutions i).eql resolution s.stringBytes = some false) := by
  induction ids with
  | nil => exact ⟨none, rfl, nofun, fun _ i hi => nomatch hi⟩
  | cons i rest ih =>
    obtain ⟨found, hfound, hsome, hnone⟩ := ih fun i hi => h i (List.mem_cons_of_mem _ hi)
    obtain ⟨equal, hequal⟩ := eql_returns _ _ (h i List.mem_cons_self).symm s.stringBytes
    have hsatisfies : s.trySatisfiesDedupe none resolution i = false := by
      unfold trySatisfiesDedupe
      cases s.resolutions i <;> rfl
    rw [findId, hequal, hsatisfies]
    cases equal with
    | true =>
      refine ⟨some i, rfl, fun j hj => ?_, nofun⟩
      cases hj
      exact ⟨List.mem_cons_self, hequal⟩
    | false =>
      refine ⟨found, hfound, fun j hj => ⟨List.mem_cons_of_mem _ (hsome j hj).1, (hsome j hj).2⟩, fun hnot j hj => ?_⟩
      rcases List.mem_cons.mp hj with rfl | hj
      · exact hequal
      · exact hnone hnot j hj

/-- Without a range, a package is found by name and resolution. -/
theorem getPackageId_spec (h : s.Indexed) (nameHash : UInt64)
    (hcomparable : s.Comparable nameHash resolution) : ∃ found, s.getPackageId nameHash none resolution = some found ∧
      (∀ i, found = some i → ∃ package, s.IsOf nameHash i package ∧
        package.resolution.eql resolution s.stringBytes = some true) ∧
      (found = none → ∀ i package, s.IsOf nameHash i package →
        package.resolution.eql resolution s.stringBytes = some false) := by
  have hget : s.getPackageId nameHash none resolution = s.findId none resolution (s.idsOf nameHash) := by
    rw [getPackageId, idsOf]
    cases s.packageIndex nameHash <;> rfl
  obtain ⟨found, hfound, hsome, hnone⟩ := findId_spec fun i => hcomparable.of_mem h (i := i)
  refine ⟨found, hget.trans hfound, fun i hi => ?_, fun hnot i package hpackage => ?_⟩
  · obtain ⟨hmem, hequal⟩ := hsome i hi
    obtain ⟨package, hpackage⟩ := (h.mem_iff nameHash i).mp hmem
    exact ⟨package, hpackage, hpackage.resolutions_eq ▸ hequal⟩
  · exact hpackage.resolutions_eq ▸ hnone hnot i ((h.mem_iff nameHash i).mpr ⟨package, hpackage⟩)

/-! ### Invariants -/

variable {s' : Lockfile}

theorem Inserted.isOf_iff (h : s.Inserted package s') (nameHash : UInt64) (i : Nat) (p : Package) :
    s'.IsOf nameHash i p ↔ s.IsOf nameHash i p ∨
      i = s.packages.length ∧ p = {package with id := s.packages.length} ∧ package.nameHash = nameHash := by
  rw [IsOf, IsOf, h.packages_eq, List.getElem?_append]
  split
  · rename_i hi
    exact ⟨.inl, fun hor => hor.elim id fun hnew => absurd hnew.1 (Nat.ne_of_lt hi)⟩
  · rename_i hi
    rw [List.getElem?_eq_none (Nat.le_of_not_lt hi)]
    constructor
    · rintro ⟨hget, hname⟩
      rw [List.getElem?_singleton] at hget
      obtain ⟨hzero, hp⟩ := Option.ite_none_right_eq_some.mp hget
      cases hp
      exact .inr ⟨by omega, rfl, hname⟩
    · rintro (⟨hnone, -⟩ | ⟨rfl, rfl, hname⟩)
      · exact nomatch hnone
      · rw [Nat.sub_self]
        exact ⟨rfl, hname⟩

theorem Indexed.lt (h : s.Indexed) (hi : i ∈ s.idsOf nameHash) : i < s.packages.length := by
  obtain ⟨p, hp⟩ := (h.mem_iff nameHash i).mp hi
  exact (List.getElem?_eq_some_iff.mp hp.1).1

theorem Inserted.idsOf_other (h : s.Inserted package s') (hne : nameHash ≠ package.nameHash) :
    s'.idsOf nameHash = s.idsOf nameHash := by
  rw [idsOf, idsOf, h.others nameHash hne]

theorem Inserted.indexed (h : s.Inserted package s') (hs : s.Indexed) : s'.Indexed where
  nodup nameHash := by
    by_cases hname : nameHash = package.nameHash
    · rw [hname, h.ids_eq, (insertAbove_perm ..).nodup_iff]
      exact List.nodup_cons.mpr ⟨fun hmem => Nat.lt_irrefl _ (hs.lt hmem), hs.nodup _⟩
    · rw [h.idsOf_other hname]
      exact hs.nodup nameHash
  mem_iff nameHash i := by
    simp only [h.isOf_iff, exists_or, ← hs.mem_iff]
    by_cases hname : nameHash = package.nameHash
    · subst hname
      rw [h.ids_eq, mem_insertAbove, or_comm]
      simp
    · rw [h.idsOf_other hname]
      simp [Ne.symm hname]
  entry nameHash entry hentry := by
    by_cases hname : nameHash = package.nameHash
    · subst hname
      obtain ⟨entry', hentry', hids⟩ := h.entry
      cases hentry.symm.trans hentry'
      have htoList : entry.toList = insertAbove (s'.isGreater package.resolution) s.packages.length
          (s.idsOf package.nameHash) := by
        rw [← h.ids_eq, idsOf, hentry]
        rfl
      have hlength := (insertAbove_perm (s'.isGreater package.resolution) s.packages.length
        (s.idsOf package.nameHash)).length_eq
      rw [← htoList, List.length_cons] at hlength
      refine ⟨fun hnil => ?_, fun ids heq => ?_⟩
      · rw [hnil] at hlength
        exact nomatch hlength
      · have hpos := List.length_pos_of_ne_nil (hids ids heq)
        subst heq
        have hids : (PackageIndexEntry.ids ids).toList.length = ids.length := rfl
        omega
    · rw [h.others nameHash hname] at hentry
      exact hs.entry nameHash entry hentry
  own_id i p hp := by
    rcases (h.isOf_iff p.nameHash i p).mp ⟨hp, rfl⟩ with hold | ⟨rfl, rfl, -⟩
    · exact hs.own_id i p hold.1
    · rfl

/-- The order of no two packages of the name rests on builds that have one hash and differ. -/
def AllAgree (s : Lockfile) (nameHash : UInt64) : Prop :=
  ∀ i j p q, s.IsOf nameHash i p → s.IsOf nameHash j q → Resolution.Agree s.stringBytes p.resolution q.resolution

/-- By the keys of the resolutions -/
def Sorted (s : Lockfile) (nameHash : UInt64) : Prop :=
  (s.idsOf nameHash).Pairwise fun i j => (comparing s.resolutions (Resolution.compareKeys s.stringBytes) i j).isGE

theorem Inserted.resolutions_eq (h : s.Inserted package s') (hi : i < s.packages.length) :
    s'.resolutions i = s.resolutions i := by
  rw [resolutions, resolutions, h.packages_eq, List.getElem?_append_left hi]

theorem Inserted.resolutions_self (h : s.Inserted package s') : s'.resolutions s.packages.length = package.resolution := by
  rw [resolutions, h.packages_eq, List.getElem?_concat_length]
  rfl

theorem Inserted.sorted (h : s.Inserted package s') (hs : s.Indexed) (hagree : s'.AllAgree nameHash)
    (hsorted : s.Sorted nameHash) : s'.Sorted nameHash := by
  have hold : (s.idsOf nameHash).Pairwise fun i j =>
      (comparing s'.resolutions (Resolution.compareKeys s'.stringBytes) i j).isGE := by
    refine hsorted.imp_of_mem fun hi hj hge => ?_
    rwa [comparing, h.stringBytes_eq, h.resolutions_eq (hs.lt hi), h.resolutions_eq (hs.lt hj)]
  by_cases hname : nameHash = package.nameHash
  · subst hname
    rw [Sorted, h.ids_eq]
    refine pairwise_insertAbove (fun j hj => ?_) hold
    obtain ⟨q, hq⟩ := (hs.mem_iff package.nameHash j).mp hj
    have hq' := (h.isOf_iff package.nameHash j q).mpr (.inl hq)
    have hself := (h.isOf_iff package.nameHash _ _).mpr (.inr ⟨rfl, rfl, rfl⟩)
    have hpair := hagree _ _ _ _ hself hq'
    rw [isGreater, comparing, h.resolutions_self, hq'.resolutions_eq]
    exact congrArg (· == .gt) (Resolution.order_eq hpair)
  · rw [Sorted, h.idsOf_other hname]
    exact hold

theorem Inserted.allAgree (h : s.Inserted package s') (hagree : s'.AllAgree nameHash) :
    s.AllAgree nameHash := by
  intro i j p q hp hq
  rw [← h.stringBytes_eq]
  exact hagree i j p q ((h.isOf_iff ..).mpr (.inl hp)) ((h.isOf_iff ..).mpr (.inl hq))

end

/-! ### Runs -/

theorem indexed_empty (stringBytes : List UInt8) (loadedPackageCount : Nat) (exactPinned : Nat → Bool) :
    (empty stringBytes loadedPackageCount exactPinned).Indexed where
  nodup _ := List.nodup_nil
  mem_iff _ _ := ⟨(fun hi => nomatch hi), (fun ⟨_, hp⟩ => nomatch hp.1)⟩
  entry _ _ hentry := nomatch hentry
  own_id _ _ hp := nomatch hp

/-- One call -/
theorem inserted_call {s s' : Lockfile} (h : s.Indexed) {c : Call} (hfits : c.Fits s) (hcall : s.call c = some s') :
    s' = s ∨ ∃ package, s.Inserted package s' := by
  cases c with
  | appendPackageDedupe package =>
    obtain ⟨⟨i, s''⟩, hdedupe, rfl⟩ := Option.map_eq_some_iff.mp hcall
    rcases deduped h hdedupe with hsame | hnew
    · exact .inl hsame.1
    · exact .inr ⟨package, hnew.2.1⟩
  | appendPackage package =>
    cases hcall
    exact .inr ⟨package, inserted_appendPackageWithId h (Nat.mod_eq_of_lt hfits)⟩
  | appendPackageWithId package i =>
    cases hcall
    exact .inr ⟨package, inserted_appendPackageWithId h hfits.1⟩

end Lockfile

open PackageIndex.Lockfile

theorem Reached.indexed {s : Lockfile} (h : Reached s) : s.Indexed := by
  induction h with
  | start stringBytes loadedPackageCount exactPinned => exact indexed_empty stringBytes loadedPackageCount exactPinned
  | call c _ hfits hcall ih =>
    rcases inserted_call ih hfits hcall with rfl | ⟨package, hinserted⟩
    · exact ih
    · exact hinserted.indexed ih

theorem Reached.sorted {s : Lockfile} (h : Reached s) {nameHash : UInt64} (hagree : s.AllAgree nameHash) :
    s.Sorted nameHash := by
  induction h with
  | start => exact .nil
  | call c hs hfits hcall ih =>
    rcases inserted_call hs.indexed hfits hcall with rfl | ⟨package, hinserted⟩
    · exact ih hagree
    · exact hinserted.sorted hs.indexed hagree (ih (hinserted.allAgree hagree))

/-- **The index is exact after every sequence of calls**: it lists the packages of a name once and from the greatest down,
no equal package is appended, and a lookup finds what is equal. -/
theorem packageIndex_exact {s : Lockfile} (h : Reached s) :
    (∀ nameHash, (s.idsOf nameHash).Nodup ∧
      (∀ i, i ∈ s.idsOf nameHash ↔ ∃ package, s.IsOf nameHash i package) ∧
      (s.AllAgree nameHash →
        (s.idsOf nameHash).Pairwise fun i j => ((s.resolutions i).order (s.resolutions j) s.stringBytes).isGE)) ∧
    (∀ package : Package, s.Comparable package.nameHash package.resolution → s.packages.length < UInt32.size →
      ∃ i s', s.appendPackageDedupe package = some (i, s') ∧ s.Deduped package i s' ∧
        (s' = s ∨ ∀ j existing, s.IsOf package.nameHash j existing →
          package.resolution.eql existing.resolution s.stringBytes = some false)) ∧
    (∀ nameHash (resolution : Resolution), s.Comparable nameHash resolution →
      ∃ found, s.getPackageId nameHash none resolution = some found ∧
        (found.isSome = true ↔ ∃ i package, s.IsOf nameHash i package ∧
          package.resolution.eql resolution s.stringBytes = some true) ∧
        ∀ i, found = some i → ∃ package, s.IsOf nameHash i package ∧
          package.resolution.eql resolution s.stringBytes = some true) := by
  have hindexed := h.indexed
  refine ⟨fun nameHash => ⟨hindexed.nodup nameHash, hindexed.mem_iff nameHash, fun hagree => ?_⟩, ?_, ?_⟩
  · refine (h.sorted hagree).imp_of_mem fun hi hj hge => ?_
    obtain ⟨p, hp⟩ := (hindexed.mem_iff nameHash _).mp hi
    obtain ⟨q, hq⟩ := (hindexed.mem_iff nameHash _).mp hj
    rw [comparing, hp.resolutions_eq, hq.resolutions_eq] at hge
    rwa [hp.resolutions_eq, hq.resolutions_eq, Resolution.order_eq (hagree _ _ p q hp hq)]
  · intro package hcomparable hlength
    obtain ⟨i, s', hcall⟩ := appendPackageDedupe_returns hindexed hcomparable hlength
    have hdeduped := deduped hindexed hcall
    refine ⟨i, s', hcall, hdeduped, ?_⟩
    rcases hdeduped with ⟨hsame, -⟩ | ⟨-, -, hnone⟩
    · exact .inl hsame
    · refine .inr fun j existing hexisting => ?_
      have hequal := hnone j ((hindexed.mem_iff _ j).mpr ⟨existing, hexisting⟩)
      rwa [hexisting.resolutions_eq] at hequal
  · intro nameHash resolution hcomparable
    obtain ⟨found, hfound, hsome, hnone⟩ := getPackageId_spec hindexed nameHash hcomparable
    refine ⟨found, hfound, ?_, hsome⟩
    constructor
    · intro hfound
      obtain ⟨i, hi⟩ := Option.isSome_iff_exists.mp hfound
      exact ⟨i, hsome i hi⟩
    · rintro ⟨i, package, hpackage, hequal⟩
      cases found with
      | some _ => rfl
      | none => exact nomatch hequal.symm.trans (hnone rfl i package hpackage)

/-! ### Builds with one hash -/

def text (bytes : List UInt8) (length : bytes.length = 8) : SemverString := ⟨bytes, length⟩

/-- `1.0.0` with a build of one letter -/
def withBuild (letter : UInt8) (hash : UInt64) : Package where
  nameHash := 7
  resolution := .npm ⟨1, 0, 0, ⟨text (.replicate 8 0) rfl, 0⟩, ⟨text [letter, 0, 0, 0, 0, 0, 0, 0] rfl, hash⟩⟩
  id := 0

def noPins : Lockfile := .empty [] 0 fun _ => false

/-- Two calls, of two ways -/
def twoBuilds : Lockfile := (noPins.appendPackage (withBuild 97 1)).appendPackageWithId (withBuild 98 2) 1

theorem reached_twoBuilds : Reached twoBuilds :=
  .call (.appendPackageWithId (withBuild 98 2) 1)
    (.call (.appendPackage (withBuild 97 1)) (.start [] 0 fun _ => false) (show 0 < UInt32.size by decide) rfl)
    ⟨rfl, by decide⟩ rfl

theorem packageIndex_exact_twoBuilds :
    (twoBuilds.idsOf 7).Pairwise fun i j => ((twoBuilds.resolutions i).order (twoBuilds.resolutions j) []).isGE := by
  have hcases : ∀ p ∈ twoBuilds.packages,
      p.resolution = (withBuild 97 1).resolution ∨ p.resolution = (withBuild 98 2).resolution := by decide
  have hagree : twoBuilds.AllAgree 7 := by
    intro i j p q hp hq
    rcases hcases p (List.mem_of_getElem? hp.1) with hp | hp <;>
      rcases hcases q (List.mem_of_getElem? hq.1) with hq | hq <;> rw [hp, hq]
    · exact fun _ _ _ _ => rfl
    · exact fun _ _ hhash _ => absurd hhash (by decide)
    · exact fun _ _ hhash _ => absurd hhash (by decide)
    · exact fun _ _ _ _ => rfl
  exact ((packageIndex_exact reached_twoBuilds).1 7).2.2 hagree

/-- The first and the second build have one hash. -/
def threeBuilds : Lockfile :=
  ((noPins.appendPackage (withBuild 97 1)).appendPackage (withBuild 99 1)).appendPackage (withBuild 98 2)

theorem reached_threeBuilds : Reached threeBuilds :=
  .call (.appendPackage (withBuild 98 2))
    (.call (.appendPackage (withBuild 99 1))
      (.call (.appendPackage (withBuild 97 1)) (.start [] 0 fun _ => false) (show 0 < UInt32.size by decide) rfl)
      (show 1 < UInt32.size by decide) rfl)
    (show 2 < UInt32.size by decide) rfl

def unresolved : Package := ⟨7, .uninitialized, 0⟩

/-- Builds `a` and `c` of one hash, then `b`: the list is `b`, `a`, `c`. And two packages without resolution are no pair that
is compared. -/
theorem packageIndex_unsorted :
    (Reached threeBuilds ∧ threeBuilds.idsOf 7 = [2, 0, 1] ∧
      ¬ (threeBuilds.idsOf 7).Pairwise fun i j =>
        ((threeBuilds.resolutions i).order (threeBuilds.resolutions j) threeBuilds.stringBytes).isGE) ∧
    Reached (noPins.appendPackage unresolved) ∧
      ((noPins.appendPackage unresolved).appendPackageDedupe unresolved).isNone = true ∧
      (noPins.appendPackage unresolved).getPackageId 7 none .uninitialized = none := by
  refine ⟨⟨reached_threeBuilds, rfl, by decide⟩, ?_, rfl, rfl⟩
  exact .call (.appendPackage unresolved) (.start [] 0 fun _ => false) (show 0 < UInt32.size by decide) rfl

end Funbun.Install.PackageIndex
