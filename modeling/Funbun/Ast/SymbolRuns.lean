import Funbun.Ast.SymbolProofs
import Mathlib.Data.List.Nodup

/-! Runs of a symbol map. -/
namespace Funbun.Ast
open Library Forest Fuel

namespace Map
variable {initial map : Map} {joins : List (Ref × Ref)}

/-- A map before any merge. There are fewer sources than the index that stands for none. -/
structure Fresh (map : Map) : Prop where
  sources : map.symbolsForSource.length < 2 ^ 31
  unset : ∀ symbols ∈ map.symbolsForSource, ∀ symbol ∈ symbols, symbol.hasLink = false

def Call.InRange (map : Map) : Call → Prop
  | .merge old new => map.InRange old ∧ map.InRange new
  | .follow ref => map.InRange ref
  | .followAll => True

instance (map : Map) : (call : Call) → Decidable (call.InRange map)
  | .merge old new => inferInstanceAs (Decidable (map.InRange old ∧ map.InRange new))
  | .follow ref => inferInstanceAs (Decidable (map.InRange ref))
  | .followAll => inferInstanceAs (Decidable True)

/-- What a call merges. -/
def Call.merges : Call → List (Ref × Ref)
  | .merge old new => [(old, new)]
  | .follow _ | .followAll => []

def useCount (map : Map) (ref : Ref) : Nat := ((map.getConst ref).map (·.useCountEstimate.toNat)).getD 0

def mustNotBeRenamed (map : Map) (ref : Ref) : Bool := (map.getConst ref).any (·.mustNotBeRenamed)

/-- The uses of the members of a class together. -/
def classUses (initial : Map) (rep : Ref → Ref) (ref : Ref) : Nat :=
  ((initial.refs.filter fun member => rep member = ref).map initial.useCount).sum

/-- Some member of a class must not be renamed. -/
def ClassPinned (initial : Map) (rep : Ref → Ref) (ref : Ref) : Prop :=
  ∃ member ∈ initial.refs, rep member = ref ∧ initial.mustNotBeRenamed member = true

theorem mem_refs (h : map.symbolsForSource.length < 2 ^ 31) {ref : Ref} : ref ∈ map.refs ↔ map.InRange ref := by
  obtain ⟨inner, source, tag⟩ := ref
  simp only [refs, List.mem_flatMap, List.mem_map, List.mem_range, InRange, Prod.exists, List.mem_zipIdx_iff_getElem?]
  constructor
  · rintro ⟨symbols, source', hsymbols, inner', hinner, heq⟩
    cases heq
    refine ⟨rfl, ?_⟩
    have hsource := (List.getElem?_eq_some_iff.mp hsymbols).choose
    have hnull : ¬(Ref.isSourceIndexNull source = true) := by
      unfold Ref.isSourceIndexNull
      simp only [beq_iff_eq]
      omega
    simp only [getConst, Ref.isSourceContentsSlice, lookup, hsymbols, Option.bind_some]
    rw [if_neg (by simpa using hnull)]
    rw [List.getElem?_eq_getElem hinner]
    rfl
  · rintro ⟨rfl, hsome⟩
    simp only [getConst] at hsome
    split at hsome
    · cases hsome
    · obtain ⟨symbol, hsymbol⟩ := Option.isSome_iff_exists.mp hsome
      obtain ⟨symbols, hsymbols, hget⟩ := Option.bind_eq_some_iff.mp hsymbol
      exact ⟨symbols, source, hsymbols, inner, (List.getElem?_eq_some_iff.mp hget).choose, rfl⟩

theorem nodup_refs (map : Map) : map.refs.Nodup := by
  unfold refs
  rw [List.nodup_flatMap]
  constructor
  · rintro ⟨symbols, source⟩ -
    exact List.Nodup.map (fun i j hij => by cases hij; rfl) List.nodup_range
  · have hpairwise : (map.symbolsForSource.zipIdx.map (·.2)).Nodup := by
      rw [List.zipIdx_map_snd]
      exact List.nodup_range'
    refine (List.pairwise_map.mp hpairwise).imp ?_
    intro a b hne
    show List.Disjoint _ _
    rw [List.disjoint_iff_ne]
    intro ref href ref' href' heq
    obtain ⟨i, -, rfl⟩ := List.mem_map.mp href
    obtain ⟨j, -, rfl⟩ := List.mem_map.mp href'
    exact hne (congrArg Ref.sourceIndex heq)

/-- What calls keep: the trees are the classes of the merges, and a representative holds what its class held. -/
structure Tracks (initial : Map) (joins : List (Ref × Ref)) (map : Map) : Prop where
  linked : Linked map (reps joins)
  sources : map.symbolsForSource.length = initial.symbolsForSource.length
  inRange : ∀ ref, map.InRange ref ↔ initial.InRange ref
  uses : ∀ ref, initial.InRange ref → reps joins ref = ref →
    map.useCount ref = classUses initial (reps joins) ref % 2 ^ 32
  pinned : ∀ ref, initial.InRange ref → reps joins ref = ref →
    (map.mustNotBeRenamed ref = true ↔ ClassPinned initial (reps joins) ref)

theorem useCount_eq (map : Map) (ref : Ref) :
    map.useCount ref = ((map.contents ref).map (·.useCountEstimate.toNat)).getD 0 := by
  unfold useCount contents
  rw [Option.map_map]
  rfl

theorem mustNotBeRenamed_eq (map : Map) (ref : Ref) :
    map.mustNotBeRenamed ref = (map.contents ref).any (·.mustNotBeRenamed) := by
  unfold mustNotBeRenamed contents
  rw [Option.any_map]

theorem useCount_lt (map : Map) (ref : Ref) : map.useCount ref < 2 ^ 32 := by
  unfold useCount
  cases map.getConst ref with
  | none => decide
  | some symbol => exact symbol.useCountEstimate.toNat_lt

/-- From the start every symbol is a class. -/
theorem tracks_fresh (h : initial.Fresh) : Tracks initial [] initial where
  linked := by
    have hnone : ∀ a, initial.linkOf a = none := by
      intro a
      unfold linkOf
      split
      · cases hsymbol : initial.getConst a with
        | none => rfl
        | some symbol =>
          have hunset : symbol.hasLink = false := by
            unfold getConst at hsymbol
            split at hsymbol
            · cases hsymbol
            · obtain ⟨symbols, hsymbols, hget⟩ := Option.bind_eq_some_iff.mp hsymbol
              exact h.unset symbols (List.mem_of_getElem? hsymbols) symbol (List.mem_of_getElem? hget)
          exact if_neg (by rw [← Symbol.hasLink, hunset]; decide)
      · rfl
    refine ⟨fun a => .here (hnone a), fun a b hab => ?_⟩
    rw [hnone a] at hab
    cases hab
  sources := rfl
  inRange := fun _ => Iff.rfl
  uses := by
    intro ref href _
    have hmem := (mem_refs h.sources).mpr href
    have hfilter : initial.refs.filter (fun member => reps [] member = ref) = [ref] := by
      show initial.refs.filter (fun member => member = ref) = [ref]
      rw [List.filter_eq, List.count_eq_one_of_mem (nodup_refs initial) hmem]
      rfl
    rw [classUses, hfilter, List.map_singleton, List.sum_singleton, Nat.mod_eq_of_lt (useCount_lt initial ref)]
  pinned := by
    intro ref href _
    constructor
    · exact fun hpinned => ⟨ref, (mem_refs h.sources).mpr href, rfl, hpinned⟩
    · rintro ⟨member, -, rfl, hpinned⟩
      exact hpinned

/-! ### Classes that join -/

theorem sum_filter_or {α : Type} (f : α → Nat) (p q : α → Prop) [DecidablePred p] [DecidablePred q]
    (hnot : ∀ a, p a → ¬q a) (as : List α) :
    ((as.filter fun a => p a ∨ q a).map f).sum = ((as.filter p).map f).sum + ((as.filter q).map f).sum := by
  induction as with
  | nil => rfl
  | cons a as ih =>
    by_cases hp : p a
    · have hq := hnot a hp
      simp only [List.filter_cons, hp, hq, true_or, decide_true, decide_false, if_true, List.map_cons, List.sum_cons, ih]
      simp only [Bool.false_eq_true, if_false, Nat.add_assoc]
    · by_cases hq : q a
      · simp only [List.filter_cons, hp, hq, or_true, decide_true, decide_false, if_true, List.map_cons, List.sum_cons, ih]
        simp only [Bool.false_eq_true, if_false]
        omega
      · simp only [List.filter_cons, hp, hq, or_self, decide_false, Bool.false_eq_true, if_false, ih]

section Join
variable {rep : Ref → Ref} {old new ref member : Ref}

theorem join_eq_new_iff : join rep old new member = rep new ↔ rep member = rep new ∨ rep member = rep old := by
  unfold join
  split
  · rename_i h
    simp [h]
  · rename_i h
    simp [h]

/-- The other classes are as they were. -/
theorem join_eq_iff (hidem : ∀ a, rep (rep a) = rep a) (href : ref ≠ rep new) (hroot : join rep old new ref = ref) :
    join rep old new member = ref ↔ rep member = ref := by
  unfold join at hroot ⊢
  split at hroot
  · exact absurd hroot.symm href
  · rename_i hother
    split
    · rename_i hmember
      refine ⟨fun h => absurd h.symm href, fun h => ?_⟩
      subst h
      rw [hidem] at hother
      exact absurd hmember hother
    · exact Iff.rfl

end Join

/-- What `merge` keeps -/
theorem Tracks.merged (h : Tracks initial joins map) {old new merged : Ref} (hold : map.InRange old)
    (hnew : map.InRange new) {map' : Map} (hm : Merged map (reps joins) old new merged map') :
    Tracks initial (joins ++ [(old, new)]) map' where
  linked := by
    rw [reps_append]
    exact hm.linked
  sources := hm.sources.trans h.sources
  inRange := fun ref => (hm.inRange ref).trans (h.inRange ref)
  uses := by
    intro ref href hroot
    rw [reps_append] at hroot ⊢
    rw [useCount_eq, hm.contents ref href.1, mergedContents]
    by_cases hsame : reps joins old = reps joins new
    · rw [if_neg fun hne => hne.1 hsame, ← useCount_eq, join_of_eq hsame] at *
      exact h.uses ref href hroot
    by_cases hnewRoot : ref = reps joins new
    · subst hnewRoot
      obtain ⟨symbol, hsymbol⟩ := (h.linked.inRange_rep hnew).getConst
      obtain ⟨oldSymbol, holdSymbol⟩ := (h.linked.inRange_rep hold).getConst
      have huses := h.uses _ ((h.inRange _).mp (h.linked.inRange_rep hnew)) (reps_idem joins new)
      have husesOld := h.uses _ ((h.inRange _).mp (h.linked.inRange_rep hold)) (reps_idem joins old)
      have hclass : classUses initial (join (reps joins) old new) (reps joins new) =
          classUses initial (reps joins) (reps joins new) + classUses initial (reps joins) (reps joins old) := by
        unfold classUses
        simp only [join_eq_new_iff]
        exact sum_filter_or _ _ _ (fun member hmember hold => hsame (hold.symm.trans hmember)) _
      rw [hclass, if_pos ⟨hsame, rfl⟩, Nat.add_mod, ← huses, ← husesOld]
      simp only [contents, useCount, hsymbol, holdSymbol, Option.map_some, Option.bind_some, Option.getD_some,
        Symbol.useCountEstimate_mergeContentsWith, UInt32.toNat_add]
    · rw [if_neg fun h => hnewRoot h.2, ← useCount_eq]
      have hbefore := (join_eq_iff (reps_idem joins) hnewRoot hroot).mp hroot
      rw [h.uses ref href hbefore]
      unfold classUses
      simp only [join_eq_iff (reps_idem joins) hnewRoot hroot]
  pinned := by
    intro ref href hroot
    rw [reps_append] at hroot ⊢
    rw [mustNotBeRenamed_eq, hm.contents ref href.1, mergedContents]
    by_cases hsame : reps joins old = reps joins new
    · rw [if_neg fun hne => hne.1 hsame, ← mustNotBeRenamed_eq, join_of_eq hsame] at *
      exact h.pinned ref href hroot
    by_cases hnewRoot : ref = reps joins new
    · subst hnewRoot
      obtain ⟨symbol, hsymbol⟩ := (h.linked.inRange_rep hnew).getConst
      obtain ⟨oldSymbol, holdSymbol⟩ := (h.linked.inRange_rep hold).getConst
      have hpinned := h.pinned _ ((h.inRange _).mp (h.linked.inRange_rep hnew)) (reps_idem joins new)
      have hpinnedOld := h.pinned _ ((h.inRange _).mp (h.linked.inRange_rep hold)) (reps_idem joins old)
      have hclass : ClassPinned initial (join (reps joins) old new) (reps joins new) ↔
          ClassPinned initial (reps joins) (reps joins new) ∨ ClassPinned initial (reps joins) (reps joins old) := by
        unfold ClassPinned
        simp only [join_eq_new_iff, or_and_right, and_or_left, exists_or]
      rw [hclass, if_pos ⟨hsame, rfl⟩, ← hpinned, ← hpinnedOld]
      simp only [contents, mustNotBeRenamed, hsymbol, holdSymbol, Option.map_some, Option.bind_some, Option.any_some,
        Symbol.mustNotBeRenamed_mergeContentsWith, Bool.or_eq_true]
    · rw [if_neg fun h => hnewRoot h.2, ← mustNotBeRenamed_eq]
      have hbefore := (join_eq_iff (reps_idem joins) hnewRoot hroot).mp hroot
      rw [h.pinned ref href hbefore]
      unfold ClassPinned
      simp only [join_eq_iff (reps_idem joins) hnewRoot hroot]

/-- What `follow` keeps -/
theorem Tracks.same (h : Tracks initial joins map) {map' : Map} (hlinked : Linked map' (reps joins)) (hsame : Same map map') :
    Tracks initial joins map' where
  linked := hlinked
  sources := hsame.sources.trans h.sources
  inRange := fun ref => hsame.inRange.trans (h.inRange ref)
  uses := by
    intro ref href hroot
    rw [useCount_eq, hsame.contents ref href.1, ← useCount_eq]
    exact h.uses ref href hroot
  pinned := by
    intro ref href hroot
    rw [mustNotBeRenamed_eq, hsame.contents ref href.1, ← mustNotBeRenamed_eq]
    exact h.pinned ref href hroot

theorem followAll_tracks (hfresh : initial.Fresh) (h : Tracks initial joins map) :
    ∃ map', Settles (fun fuel => map.followAll fuel) map' ∧ Tracks initial joins map' := by
  have hrefs : ∀ ref ∈ map.refs, initial.InRange ref := by
    intro ref href
    rw [mem_refs (h.sources ▸ hfresh.sources)] at href
    exact (h.inRange ref).mp href
  refine settles_foldlM (f := fun fuel map ref => followLink fuel map ref) (Tracks initial joins) map.refs ?_ map h
  intro ref href map hmap
  obtain ⟨map', hsettles, hlinked, hsame⟩ := followLink_spec hmap.linked ((hmap.inRange ref).mpr (hrefs ref href))
  exact ⟨map', hsettles, hmap.same hlinked hsame⟩

/-- One call -/
theorem step_tracks (hfresh : initial.Fresh) (h : Tracks initial joins map) {call : Call} (hcall : call.InRange initial) :
    ∃ map', Settles (fun fuel => map.step fuel call) map' ∧ Tracks initial (joins ++ call.merges) map' := by
  cases call with
  | merge old new =>
    have hold := (h.inRange old).mpr hcall.1
    have hnew := (h.inRange new).mpr hcall.2
    obtain ⟨merged, map', hsettles, hm⟩ := merge_spec h.linked hold hnew
    exact ⟨map', hsettles.map _, h.merged hold hnew hm⟩
  | follow ref =>
    obtain ⟨map', hsettles, hlinked, hsame⟩ := follow_spec h.linked ((h.inRange ref).mpr hcall)
    refine ⟨map', hsettles.map _, ?_⟩
    rw [Call.merges, List.append_nil]
    exact h.same hlinked hsame
  | followAll =>
    rw [Call.merges, List.append_nil]
    exact followAll_tracks hfresh h

theorem run_tracks (hfresh : initial.Fresh) (calls : List Call) (hcalls : ∀ call ∈ calls, call.InRange initial)
    (h : Tracks initial joins map) :
    ∃ map', Settles (fun fuel => map.run fuel calls) map' ∧ Tracks initial (joins ++ calls.flatMap Call.merges) map' := by
  induction calls generalizing map joins with
  | nil =>
    rw [List.flatMap_nil, List.append_nil]
    exact ⟨map, .of_forall fun _ => rfl, h⟩
  | cons call calls ih =>
    obtain ⟨mid, hstep, hmid⟩ := step_tracks hfresh h (hcalls call List.mem_cons_self)
    obtain ⟨map', hrest, hmap'⟩ := ih (fun call hcall => hcalls call (List.mem_cons_of_mem _ hcall)) hmid
    refine ⟨map', hstep.bind (g := fun fuel map => map.run fuel calls) hrest, ?_⟩
    rw [List.flatMap_cons, ← List.append_assoc]
    exact hmap'

/-! ### Union-find -/

/-- `follow` ends at `root`. -/
def Follows (map : Map) (ref root : Ref) : Prop := ∃ map', Settles (fun fuel => map.follow fuel ref) (root, map')

/-- What the calls of a run leave. -/
structure UnionFind (initial : Map) (joins : List (Ref × Ref)) (map : Map) : Prop where
  acyclic : ∀ ref, ¬Relation.TransGen (fun a b => map.linkOf a = some b) ref ref
  follows : ∀ ref, initial.InRange ref → map.Follows ref (reps joins ref)
  uses : ∀ ref, initial.InRange ref → map.useCount (reps joins ref) = classUses initial (reps joins) (reps joins ref) % 2 ^ 32
  pinned : ∀ ref, initial.InRange ref →
    (map.mustNotBeRenamed (reps joins ref) = true ↔ ClassPinned initial (reps joins) (reps joins ref))

theorem Tracks.unionFind (h : Tracks initial joins map) : UnionFind initial joins map := by
  have hrep : ∀ ref, initial.InRange ref → initial.InRange (reps joins ref) :=
    fun ref href => (h.inRange _).mp (h.linked.inRange_rep ((h.inRange ref).mpr href))
  constructor
  · exact fun ref => (h.linked.root ref).not_cycle
  · intro ref href
    obtain ⟨map', hsettles, -⟩ := follow_spec h.linked ((h.inRange ref).mpr href)
    exact ⟨map', hsettles⟩
  · exact fun ref href => h.uses _ (hrep ref href) (reps_idem joins ref)
  · exact fun ref href => h.pinned _ (hrep ref href) (reps_idem joins ref)

/-- Every run ends and leaves a union-find: symbols have one representative if the merges connect them, and it holds the
uses of its class and whether one of them must keep its name. A further merge makes the representative of `new` that of
both; a further `follow` or `follow_all` changes none. -/
theorem run_unionFind (initial : Map) (hfresh : initial.Fresh) (calls : List Call)
    (hcalls : ∀ call ∈ calls, call.InRange initial) :
    ∃ map, Settles (fun fuel => initial.run fuel calls) map ∧
      UnionFind initial (calls.flatMap Call.merges) map ∧
      (∀ a b, reps (calls.flatMap Call.merges) a = reps (calls.flatMap Call.merges) b ↔
        Relation.EqvGen (fun a b => Call.merge a b ∈ calls) a b) ∧
      (∀ old new, initial.InRange old → initial.InRange new →
        ∃ map', Settles (fun fuel => map.step fuel (.merge old new)) map' ∧
          map'.Follows old (reps (calls.flatMap Call.merges) new) ∧
            map'.Follows new (reps (calls.flatMap Call.merges) new)) ∧
      ∀ call : Call, call.InRange initial → call.merges = [] → ∃ map', Settles (fun fuel => map.step fuel call) map' ∧
        ∀ ref, initial.InRange ref → map'.Follows ref (reps (calls.flatMap Call.merges) ref) := by
  obtain ⟨map, hsettles, h⟩ := run_tracks hfresh calls hcalls (tracks_fresh hfresh)
  rw [List.nil_append] at h
  have hmerges : ∀ a b, (a, b) ∈ calls.flatMap Call.merges ↔ Call.merge a b ∈ calls := by
    intro a b
    rw [List.mem_flatMap]
    constructor
    · rintro ⟨call, hcall, hmem⟩
      cases call with
      | merge old new =>
        cases List.mem_singleton.mp hmem
        exact hcall
      | follow => cases hmem
      | followAll => cases hmem
    · exact fun hcall => ⟨_, hcall, List.mem_singleton.mpr rfl⟩
  refine ⟨map, hsettles, h.unionFind, fun a b => ?_, fun old new hold hnew => ?_, fun call hcall hnone => ?_⟩
  · rw [reps_eq_iff]
    simp only [hmerges]
  · obtain ⟨map', hstep, h'⟩ := step_tracks hfresh h (show Call.InRange initial (.merge old new) from ⟨hold, hnew⟩)
    have hfollows := h'.unionFind.follows
    rw [Call.merges, reps_append] at hfollows
    refine ⟨map', hstep, ?_, ?_⟩
    · rw [← join_old (reps (calls.flatMap Call.merges)) old new]
      exact hfollows old hold
    · rw [← join_new (reps (calls.flatMap Call.merges)) old new]
      exact hfollows new hnew
  · obtain ⟨map', hstep, h'⟩ := step_tracks hfresh h hcall
    rw [hnone, List.append_nil] at h'
    exact ⟨map', hstep, h'.unionFind.follows⟩

/-! Two symbols of one file and one of another. -/

def exampleMap (uses : UInt32) : Map :=
  ⟨[[⟨[0x61], .none, uses, false⟩, ⟨[0x62], .none, uses, true⟩], [⟨[0x63], .none, 1, false⟩]]⟩

def exampleCalls : List Call :=
  [.merge ⟨0, 0, .symbol⟩ ⟨1, 0, .symbol⟩, .merge ⟨1, 0, .symbol⟩ ⟨0, 1, .symbol⟩, .follow ⟨0, 0, .symbol⟩, .followAll]

theorem fresh_example (uses : UInt32) : (exampleMap uses).Fresh where
  sources := Nat.lt_of_le_of_lt (Nat.le_refl 2) (by decide)
  unset := by simp [exampleMap, Symbol.hasLink, Ref.isValid, Ref.none]

theorem run_unionFind_example :
    ∃ map, Settles (fun fuel => (exampleMap 2).run fuel exampleCalls) map ∧
      UnionFind (exampleMap 2) (exampleCalls.flatMap Call.merges) map := by
  obtain ⟨map, hsettles, h, -⟩ := run_unionFind (exampleMap 2) (fresh_example 2) exampleCalls (by decide)
  exact ⟨map, hsettles, h⟩

/-- A count has 32 bits. -/
theorem run_unionFind_wraps :
    ∃ map, (exampleMap 0x80000000).run 3 [.merge ⟨0, 0, .symbol⟩ ⟨1, 0, .symbol⟩] = some map ∧
      map.useCount ⟨1, 0, .symbol⟩ = 0 ∧
      classUses (exampleMap 0x80000000) (reps [(⟨0, 0, .symbol⟩, ⟨1, 0, .symbol⟩)]) ⟨1, 0, .symbol⟩ = 2 ^ 32 :=
  ⟨_, rfl, by decide, by decide⟩

end Map
end Funbun.Ast
