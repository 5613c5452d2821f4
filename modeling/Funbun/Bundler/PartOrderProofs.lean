import Funbun.Bundler.PartOrder
import Funbun.Library.Collecting

/-! What a walk over a chunk does: it visits what is behind its files, collects their parts and lists them in order. -/
namespace Funbun.Bundler.PartOrder
open Library TreeShaking CodeSplitting Marking Collecting

/-! ### Ranges -/

namespace PartRange

/-- The parts that a range stands for. -/
def covered (r : PartRange) : List Dependency :=
  (List.range' r.partIndexBegin (r.partIndexEnd - r.partIndexBegin)).map fun p => ⟨r.sourceIndex, p⟩

def Contains (r : PartRange) (d : Dependency) : Prop :=
  r.sourceIndex = d.sourceIndex ∧ r.partIndexBegin ≤ d.partIndex ∧ d.partIndex < r.partIndexEnd

instance (r : PartRange) (d : Dependency) : Decidable (r.Contains d) :=
  inferInstanceAs (Decidable (_ ∧ _ ∧ _))

theorem mem_covered (r : PartRange) (d : Dependency) : d ∈ r.covered ↔ r.Contains d := by
  rcases d with ⟨i, p⟩
  simp only [covered, Contains, List.mem_map, List.mem_range'_1, Dependency.mk.injEq]
  constructor
  · rintro ⟨q, hq, hi, rfl⟩
    exact ⟨hi, hq.1, by omega⟩
  · rintro ⟨hi, hbegin, hend⟩
    exact ⟨p, ⟨hbegin, by omega⟩, hi, rfl⟩

theorem covered_extend (r : PartRange) : r.extend.covered = r.covered ++ [⟨r.sourceIndex, r.partIndexEnd⟩] := by
  simp only [covered, extend]
  rw [Nat.succ_sub r.begin_le_end, List.range'_concat]
  simp [r.begin_le_end]

theorem covered_single (i p : Nat) : (single i p).covered = [⟨i, p⟩] := by
  simp [covered, single]

theorem covered_whole (i n : Nat) : (whole i n).covered = (List.range n).map fun p => ⟨i, p⟩ := by
  simp [covered, whole, List.range_eq_range']

end PartRange

def coveredAll (ranges : List PartRange) : List Dependency := ranges.flatMap PartRange.covered

theorem coveredAll_append (ranges ranges' : List PartRange) :
    coveredAll (ranges ++ ranges') = coveredAll ranges ++ coveredAll ranges' :=
  List.flatMap_append

/-- A part is added to the last range, or is a new one. -/
theorem appendOrExtendRange_cases (ranges : List PartRange) (i p : Nat) :
    (∃ rest last, ranges = rest ++ [last] ∧ last.sourceIndex = i ∧ last.partIndexEnd = p ∧
      appendOrExtendRange ranges i p = rest ++ [last.extend]) ∨
    appendOrExtendRange ranges i p = ranges ++ [.single i p] := by
  rw [appendOrExtendRange]
  split
  · rename_i last hlast
    split
    · rename_i hextend
      exact .inl ⟨ranges.dropLast, last, (List.dropLast_append_getLast? last hlast).symm, hextend.1, hextend.2, rfl⟩
    · exact .inr rfl
  · exact .inr rfl

theorem coveredAll_appendOrExtendRange (ranges : List PartRange) (i p : Nat) :
    coveredAll (appendOrExtendRange ranges i p) = coveredAll ranges ++ [⟨i, p⟩] := by
  rcases appendOrExtendRange_cases ranges i p with ⟨rest, last, rfl, rfl, rfl, happend⟩ | happend
  · rw [happend, coveredAll_append, coveredAll_append, List.append_assoc]
    congr 1
    simp only [coveredAll, List.flatMap_singleton, PartRange.covered_extend]
  · rw [happend, coveredAll_append]
    simp only [coveredAll, List.flatMap_singleton, PartRange.covered_single]

/-- Ranges of other files stay. -/
theorem filter_appendOrExtendRange (keep : Nat → Bool) (ranges : List PartRange) {i : Nat} (p : Nat) (hkeep : keep i = false) :
    (appendOrExtendRange ranges i p).filter (fun r => keep r.sourceIndex) = ranges.filter fun r => keep r.sourceIndex := by
  rcases appendOrExtendRange_cases ranges i p with ⟨rest, last, rfl, rfl, -, happend⟩ | happend
  · have hextend : keep last.extend.sourceIndex = false := hkeep
    rw [happend, List.filter_append, List.filter_append]
    simp [hkeep, hextend]
  · have hsingle : keep (PartRange.single i p).sourceIndex = false := hkeep
    rw [happend, List.filter_append]
    simp [hsingle]

namespace Context
variable (x : Context) (entryBits : Finset Nat) (chunkIndex : Nat)

/-! ### What a walk does -/

/-- What the record of a part leads to. -/
def recordTargets (i p recordId : Nat) : Set Nat :=
  {j | ∃ record, (x.importRecords i)[recordId]? = some record ∧ record.sourceIndex = some j ∧
    (record.kind = .stmt ∨ x.isPartInThisChunk entryBits i p = true) ∧
    x.linker.isExternalDynamicImport record j i = false}

def recordsOf (i p : Nat) : List Nat := ((x.parts i)[p]?.map Part.importRecordIndices).getD []

def partTargets (i p : Nat) : Set Nat := ⋃ recordId ∈ x.recordsOf i p, x.recordTargets entryBits i p recordId

/-- The files that a file leads to. -/
def follows (i : Nat) : Set Nat := ⋃ p ∈ List.range (x.parts i).length, x.partTargets entryBits i p

/-- What a walk leaves: the files, the parts in ranges, and the ranges of files in one piece, of the prefix and the rest. -/
abbrev Tally := Multiset Nat × Multiset Dependency × Multiset PartRange × Multiset PartRange

def tally (s : Visitor) : Tally :=
  (s.files, coveredAll s.partsInChunkOrder, s.partsPrefix.filter fun r => !x.canBeSplit r.sourceIndex,
    s.partRanges.filter fun r => !x.canBeSplit r.sourceIndex)

def partTally (i p : Nat) : Tally := (0, {⟨i, p⟩}, 0, 0)

def namespaceShare (i : Nat) : Tally :=
  if x.canBeSplit i && x.isPartInThisChunk entryBits i namespaceExportPartIndex then partTally i namespaceExportPartIndex
  else 0

def partShare (i p : Nat) : Tally :=
  if x.isPartInThisChunk entryBits i p && x.canBeSplit i && p != namespaceExportPartIndex && x.shouldIncludePart i p then
    partTally i p
  else 0

def fileShare (i : Nat) : Tally :=
  if x.isFileInChunk entryBits i then
    if x.canBeSplit i then ({i}, 0, 0, 0)
    else ({i}, ((List.range (x.parts i).length).map fun p => ⟨i, p⟩ : List Dependency), {.whole i (x.parts i).length}, 0)
  else 0

def share (i : Nat) : Tally :=
  x.namespaceShare entryBits i + ((List.range (x.parts i).length).map (x.partShare entryBits i)).sum + x.fileShare entryBits i

structure Walk (targets : Set Nat) (own : Tally) (s s' : Visitor) : Prop where
  marked : Marked (x.follows entryBits) targets ↑s.visited ↑s'.visited
  collects : Collects (x.share entryBits) own s.visited s'.visited (x.tally s) (x.tally s')

namespace Walk
variable {x entryBits} {targets targets' : Set Nat} {own own' : Tally} {s s' s'' : Visitor}

theorem nothing : x.Walk entryBits ∅ 0 s s := ⟨.nothing _, .nothing⟩

theorem append (h : x.Walk entryBits targets own s s') (h' : x.Walk entryBits targets' own' s' s'') :
    x.Walk entryBits (targets ∪ targets') (own + own') s s'' :=
  ⟨h.marked.append h'.marked, h.collects.append h'.collects⟩

theorem congr (h : x.Walk entryBits targets own s s') (htargets : targets = targets') (hown : own = own') :
    x.Walk entryBits targets' own' s s' := htargets ▸ hown ▸ h

/-- Something is put in a list. -/
theorem emit (hvisited : s'.visited = s.visited) (htally : x.tally s' = x.tally s + own) :
    x.Walk entryBits ∅ own s s' := by
  refine ⟨?_, ?_⟩
  · rw [hvisited]
    exact .nothing _
  · rw [hvisited, htally]
    exact .emit own

theorem foldlM {γ : Type} {f : Visitor → γ → Option Visitor} (goal : γ → Set Nat) (own : γ → Tally) (cs : List γ)
    (hf : ∀ c ∈ cs, ∀ s s', f s c = some s' → x.Walk entryBits (goal c) (own c) s s') {s s' : Visitor}
    (h : cs.foldlM f s = some s') : x.Walk entryBits (⋃ c ∈ cs, goal c) (cs.map own).sum s s' := by
  induction cs generalizing s with
  | nil =>
    obtain rfl : s = s' := by simpa using h
    exact nothing.congr (by simp) rfl
  | cons c rest ih =>
    rw [List.foldlM_cons] at h
    obtain ⟨mid, hstep, hrest⟩ := Option.bind_eq_some_iff.mp h
    have hhead := hf c List.mem_cons_self s mid hstep
    have htail := ih (fun d hd => hf d (List.mem_cons_of_mem c hd)) hrest
    exact (hhead.append htail).congr (by simp) (by rw [List.map_cons, List.sum_cons])

end Walk

/-! ### One call -/

variable {i p : Nat} {visit : Nat → Visitor → Option Visitor} {s s' : Visitor}

theorem tally_partRanges (s : Visitor) (p : Nat) (hsplit : x.canBeSplit i = true) :
    x.tally {s with partRanges := appendOrExtendRange s.partRanges i p} = x.tally s + partTally i p := by
  have hwhole : (!x.canBeSplit i) = false := by rw [hsplit, Bool.not_true]
  have hcovered : (coveredAll (s.partsPrefix ++ appendOrExtendRange s.partRanges i p) : Multiset Dependency) =
      coveredAll (s.partsPrefix ++ s.partRanges) + {⟨i, p⟩} := by
    rw [coveredAll_append, coveredAll_appendOrExtendRange, coveredAll_append, ← List.append_assoc, ← Multiset.coe_add]
    rfl
  have hranges := filter_appendOrExtendRange (fun i => !x.canBeSplit i) s.partRanges p hwhole
  simp only [tally, partTally, Visitor.partsInChunkOrder, hcovered, hranges, Prod.mk_add_mk, add_zero]

theorem tally_partsPrefix (s : Visitor) (p : Nat) (hsplit : x.canBeSplit i = true) :
    x.tally {s with partsPrefix := appendOrExtendRange s.partsPrefix i p} = x.tally s + partTally i p := by
  have hwhole : (!x.canBeSplit i) = false := by rw [hsplit, Bool.not_true]
  have hcovered : (coveredAll (appendOrExtendRange s.partsPrefix i p ++ s.partRanges) : Multiset Dependency) =
      coveredAll (s.partsPrefix ++ s.partRanges) + {⟨i, p⟩} := by
    rw [coveredAll_append, coveredAll_appendOrExtendRange, coveredAll_append, ← Multiset.coe_add, ← Multiset.coe_add,
      ← Multiset.coe_add, Multiset.coe_singleton]
    ac_rfl
  have hranges := filter_appendOrExtendRange (fun i => !x.canBeSplit i) s.partsPrefix p hwhole
  simp only [tally, partTally, Visitor.partsInChunkOrder, hcovered, hranges, Prod.mk_add_mk, add_zero]

theorem walk_includeNamespace (i : Nat) (s : Visitor) :
    x.Walk entryBits ∅ (x.namespaceShare entryBits i) s (x.includeNamespace entryBits i s) := by
  rw [includeNamespace, namespaceShare]
  split
  · rename_i hinclude
    exact .emit rfl (x.tally_partRanges s _ (Bool.and_eq_true_iff.mp hinclude).1)
  · exact .nothing

theorem walk_includePart (i p : Nat) (s : Visitor) :
    x.Walk entryBits ∅ (x.partShare entryBits i p) s (x.includePart entryBits i p s) := by
  rw [includePart, partShare]
  split
  · rename_i hinclude
    simp only [Bool.and_eq_true] at hinclude
    split
    · exact .emit rfl (x.tally_partsPrefix s p hinclude.1.1.2)
    · exact .emit rfl (x.tally_partRanges s p hinclude.1.1.2)
  · exact .nothing

theorem walk_finish (i : Nat) (s : Visitor) :
    x.Walk entryBits ∅ (x.fileShare entryBits i) s (x.finish entryBits chunkIndex i s) := by
  rw [finish, fileShare]
  split
  · refine .emit rfl ?_
    split
    · rename_i hsplit
      simp only [tally, Visitor.partsInChunkOrder, ← Multiset.coe_add, Multiset.coe_singleton,
        Prod.mk_add_mk, add_zero]
    · rename_i hsplit
      have hcovered : (coveredAll (s.partsPrefix ++ [.whole i (x.parts i).length] ++ s.partRanges) : Multiset Dependency) =
          coveredAll (s.partsPrefix ++ s.partRanges) + ((List.range (x.parts i).length).map fun p => ⟨i, p⟩ : List Dependency) := by
        rw [coveredAll_append, coveredAll_append, coveredAll_append, ← Multiset.coe_add, ← Multiset.coe_add,
          ← Multiset.coe_add]
        rw [show coveredAll [PartRange.whole i (x.parts i).length] = _ from
          (List.flatMap_singleton ..).trans (PartRange.covered_whole ..)]
        ac_rfl
      have hprefix : (s.partsPrefix ++ [PartRange.whole i (x.parts i).length]).filter (fun r => !x.canBeSplit r.sourceIndex) =
          s.partsPrefix.filter (fun r => !x.canBeSplit r.sourceIndex) ++ [.whole i (x.parts i).length] := by
        have hwhole : (!x.canBeSplit (PartRange.whole i (x.parts i).length).sourceIndex) = true := by
          show (!x.canBeSplit i) = true
          rw [Bool.eq_false_of_not_eq_true hsplit]
          rfl
        rw [List.filter_append, List.filter_singleton, hwhole]
        rfl
      simp only [tally, Visitor.partsInChunkOrder, hcovered, hprefix, ← Multiset.coe_add,
        Multiset.coe_singleton, Prod.mk_add_mk, add_zero]
  · exact .nothing

theorem walk_visitRecord (hvisit : ∀ j s s', visit j s = some s' → x.Walk entryBits {j} 0 s s') (i p recordId : Nat)
    (h : x.visitRecord entryBits visit i p s recordId = some s') :
    x.Walk entryBits (x.recordTargets entryBits i p recordId) 0 s s' := by
  rw [visitRecord] at h
  have hskip (hnone : x.recordTargets entryBits i p recordId = ∅) (h : some s = some s') :
      x.Walk entryBits (x.recordTargets entryBits i p recordId) 0 s s' := by
    rw [hnone, ← Option.some.inj h]
    exact .nothing
  split at h
  · rename_i hrecord
    refine hskip (Set.eq_empty_of_forall_notMem ?_) h
    rintro j ⟨record, hget, -⟩
    exact nomatch hrecord.symm.trans hget
  · rename_i record hrecord
    split at h
    · rename_i hsource
      refine hskip (Set.eq_empty_of_forall_notMem ?_) h
      rintro j ⟨record', hget, hother, -⟩
      cases hrecord.symm.trans hget
      exact nomatch hsource.symm.trans hother
    · rename_i other hsource
      split at h
      · rename_i hfollow
        split at h
        · rename_i hexternal
          refine hskip (Set.eq_empty_of_forall_notMem ?_) h
          rintro j ⟨record', hget, hother, -, hinternal⟩
          cases hrecord.symm.trans hget
          cases hsource.symm.trans hother
          exact Bool.noConfusion (hexternal.symm.trans hinternal)
        · rename_i hexternal
          have hone : x.recordTargets entryBits i p recordId = {other} := by
            ext j
            constructor
            · rintro ⟨record', hget, hother, -⟩
              cases hrecord.symm.trans hget
              exact Option.some.inj (hother.symm.trans hsource)
            · rintro rfl
              exact ⟨record, hrecord, hsource, hfollow, Bool.eq_false_of_not_eq_true hexternal⟩
          rw [hone]
          exact hvisit other s s' h
      · rename_i hfollow
        refine hskip (Set.eq_empty_of_forall_notMem ?_) h
        rintro j ⟨record', hget, -, hfollow', -⟩
        cases hrecord.symm.trans hget
        exact hfollow hfollow'

theorem walk_visitPart (hvisit : ∀ j s s', visit j s = some s' → x.Walk entryBits {j} 0 s s') (i p : Nat)
    (h : x.visitPart entryBits visit i s p = some s') :
    x.Walk entryBits (x.partTargets entryBits i p) (x.partShare entryBits i p) s s' := by
  obtain ⟨mid, hrecords, rfl⟩ := Option.map_eq_some_iff.mp h
  have hwalk := Walk.foldlM (x.recordTargets entryBits i p) (fun _ => 0) _
    (fun recordId _ s s' h => x.walk_visitRecord entryBits hvisit i p recordId h) hrecords
  refine (hwalk.append (x.walk_includePart entryBits i p mid)).congr (Set.union_empty _) ?_
  rw [List.map_const', List.sum_replicate, nsmul_zero, zero_add]

theorem walk_visit : ∀ (fuel i : Nat) (s s' : Visitor), x.visit entryBits chunkIndex fuel i s = some s' →
    x.Walk entryBits {i} 0 s s'
  | 0, _, _, _, h => nomatch h
  | fuel + 1, i, s, s', h => by
    rw [visit] at h
    split at h
    · rename_i hvisited
      cases h
      exact ⟨.already (Finset.mem_coe.mpr hvisited), .nothing⟩
    · rename_i hvisited
      obtain ⟨mid, hparts, rfl⟩ := Option.map_eq_some_iff.mp h
      have hnamespace := x.walk_includeNamespace entryBits i {s with visited := insert i s.visited}
      have hloop := Walk.foldlM (x.partTargets entryBits i) (x.partShare entryBits i) _
        (fun p _ s s' h => x.walk_visitPart entryBits (walk_visit fuel) i p h) hparts
      have htargets : ∅ ∪ (⋃ p ∈ List.range (x.parts i).length, x.partTargets entryBits i p) ∪ ∅ = x.follows entryBits i := by
        rw [Set.empty_union, Set.union_empty, follows]
      have hbehind := ((hnamespace.append hloop).append (x.walk_finish entryBits chunkIndex i mid)).congr htargets rfl
      refine ⟨?_, hbehind.collects.explore hvisited⟩
      refine .explore (fun hmem => hvisited (Finset.mem_coe.mp hmem)) ?_
      have hmarked := hbehind.marked
      rwa [Finset.coe_insert] at hmarked

/-! ### The order -/

/-- One file leads to another. -/
def Reaches (i j : Nat) : Prop := Relation.ReflTransGen (fun i j => j ∈ x.follows entryBits i) i j

abbrev InOrder (path : Set Nat) (s : Visitor) : Prop :=
  Ordered (x.follows entryBits) (fun i => x.isFileInChunk entryBits i = true) path ↑s.visited s.files

theorem lists_includeNamespace (i : Nat) (s : Visitor) : (x.includeNamespace entryBits i s).visited = s.visited ∧
    (x.includeNamespace entryBits i s).files = s.files := by
  rw [includeNamespace]
  split <;> exact ⟨rfl, rfl⟩

theorem lists_includePart (i p : Nat) (s : Visitor) : (x.includePart entryBits i p s).visited = s.visited ∧
    (x.includePart entryBits i p s).files = s.files := by
  rw [includePart]
  split
  · split <;> exact ⟨rfl, rfl⟩
  · exact ⟨rfl, rfl⟩

theorem recordTargets_subset {i p recordId : Nat} (hp : p ∈ List.range (x.parts i).length)
    (hrecord : recordId ∈ x.recordsOf i p) : x.recordTargets entryBits i p recordId ⊆ x.follows entryBits i := by
  intro j hj
  simp only [follows, partTargets, Set.mem_iUnion]
  exact ⟨p, hp, recordId, hrecord, hj⟩

theorem inOrder_visitRecord {path : Set Nat} {i p recordId : Nat}
    (hvisit : ∀ j ∈ x.recordTargets entryBits i p recordId, ∀ s s', x.InOrder entryBits path s → visit j s = some s' →
      x.InOrder entryBits path s') (hs : x.InOrder entryBits path s)
    (h : x.visitRecord entryBits visit i p s recordId = some s') : x.InOrder entryBits path s' := by
  rw [visitRecord] at h
  have hskip (h : some s = some s') : x.InOrder entryBits path s' := Option.some.inj h ▸ hs
  split at h
  · exact hskip h
  · rename_i record hrecord
    split at h
    · exact hskip h
    · rename_i other hsource
      split at h
      · rename_i hfollow
        split at h
        · exact hskip h
        · rename_i hexternal
          exact hvisit other ⟨record, hrecord, hsource, hfollow, Bool.eq_false_of_not_eq_true hexternal⟩ s s' hs h
      · exact hskip h

theorem inOrder_visitPart {path : Set Nat}
    (hvisit : ∀ j ∈ x.follows entryBits i, ∀ s s', x.InOrder entryBits path s → visit j s = some s' →
      x.InOrder entryBits path s') (hp : p ∈ List.range (x.parts i).length)
    (hs : x.InOrder entryBits path s) (h : x.visitPart entryBits visit i s p = some s') : x.InOrder entryBits path s' := by
  obtain ⟨mid, hrecords, rfl⟩ := Option.map_eq_some_iff.mp h
  have hmid := Loop.foldlM_keeps (x.InOrder entryBits path) (fun recordId hrecord s s' hs h =>
    x.inOrder_visitRecord entryBits (fun j hj => hvisit j (x.recordTargets_subset entryBits hp hrecord hj)) hs h) hs hrecords
  rwa [InOrder, (x.lists_includePart entryBits i p mid).1, (x.lists_includePart entryBits i p mid).2]

/-- All files whose calls have not returned lead to the one that is visited. -/
theorem inOrder_visit : ∀ (fuel i : Nat) (path : Set Nat), (∀ j ∈ path, x.Reaches entryBits j i) → ∀ s s' : Visitor,
    x.InOrder entryBits path s → x.visit entryBits chunkIndex fuel i s = some s' → x.InOrder entryBits path s'
  | 0, _, _, _, _, _, _, h => nomatch h
  | fuel + 1, i, path, hpath, s, s', hs, h => by
    have hwalk := x.walk_visit entryBits chunkIndex (fuel + 1) i s s' h
    rw [visit] at h
    split at h
    · exact Option.some.inj h ▸ hs
    · rename_i hvisited
      obtain ⟨mid, hparts, rfl⟩ := Option.map_eq_some_iff.mp h
      have hpath' : ∀ j ∈ x.follows entryBits i, ∀ k ∈ insert i path, x.Reaches entryBits k j := by
        rintro j hj k (rfl | hk)
        · exact .single hj
        · exact (hpath k hk).tail hj
      have hstart : x.InOrder entryBits (insert i path)
          (x.includeNamespace entryBits i {s with visited := insert i s.visited}) := by
        rw [InOrder, (x.lists_includeNamespace entryBits i _).1, (x.lists_includeNamespace entryBits i _).2, Finset.coe_insert]
        exact hs.enter i
      have hmid := Loop.foldlM_keeps (x.InOrder entryBits (insert i path)) (fun p hp s s' hs h =>
        x.inOrder_visitPart entryBits (fun j hj => inOrder_visit fuel j (insert i path) (hpath' j hj)) hp hs h) hstart hparts
      have hfollowed : x.follows entryBits i ⊆ ↑(x.finish entryBits chunkIndex i mid).visited := by
        refine hwalk.marked.closed i ?_ fun hmem => hvisited (Finset.mem_coe.mp hmem)
        exact hwalk.marked.reached (Set.mem_singleton i)
      rw [finish] at hfollowed ⊢
      split at hfollowed
      · rename_i hin
        rw [if_pos hin]
        exact hmid.leave hfollowed hpath hin
      · rename_i hin
        rw [if_neg hin]
        exact hmid.leave_unlisted hin

/-! ### The end -/

/-- The files of the graph that are not visited yet. -/
noncomputable def unvisited (s : Visitor) : Nat :=
  remaining (Finset.range x.linker.graph.files.length) (↑s.visited : Set Nat)

theorem visitRecord_returns {bound : Nat}
    (hvisit : ∀ j s, x.unvisited s ≤ bound → ∃ s', visit j s = some s' ∧ x.unvisited s' ≤ bound) (i p recordId : Nat)
    (s : Visitor) (hs : x.unvisited s ≤ bound) :
    ∃ s', x.visitRecord entryBits visit i p s recordId = some s' ∧ x.unvisited s' ≤ bound := by
  rw [visitRecord]
  split
  · exact ⟨s, rfl, hs⟩
  · split
    · exact ⟨s, rfl, hs⟩
    · rename_i other _
      split
      · split
        · exact ⟨s, rfl, hs⟩
        · exact hvisit other s hs
      · exact ⟨s, rfl, hs⟩

theorem visitPart_returns {bound : Nat}
    (hvisit : ∀ j s, x.unvisited s ≤ bound → ∃ s', visit j s = some s' ∧ x.unvisited s' ≤ bound) (i p : Nat)
    (s : Visitor) (hs : x.unvisited s ≤ bound) :
    ∃ s', x.visitPart entryBits visit i s p = some s' ∧ x.unvisited s' ≤ bound := by
  obtain ⟨mid, hrecords, hmid⟩ := Loop.foldlM_returns (x.recordsOf i p) (fun s => x.unvisited s ≤ bound)
    (fun recordId _ s hs => x.visitRecord_returns entryBits hvisit i p recordId s hs) hs
  refine ⟨x.includePart entryBits i p mid, Option.map_eq_some_iff.mpr ⟨mid, hrecords, rfl⟩, ?_⟩
  rwa [unvisited, (x.lists_includePart entryBits i p mid).1]

/-- Every call that does something visits one more file. -/
theorem visit_returns (fuel : Nat) : ∀ (i : Nat) (s : Visitor), x.unvisited s < fuel →
    ∃ s', x.visit entryBits chunkIndex fuel i s = some s' ∧ x.unvisited s' ≤ x.unvisited s := by
  induction fuel with
  | zero => exact fun _ _ h => nomatch h
  | succ fuel ih =>
    intro i s hfuel
    have hreturns : ∃ s', x.visit entryBits chunkIndex (fuel + 1) i s = some s' := by
      rw [visit]
      split
      · exact ⟨s, rfl⟩
      · rename_i hvisited
        let entered := x.includeNamespace entryBits i {s with visited := insert i s.visited}
        have hentered : entered.visited = insert i s.visited := (x.lists_includeNamespace entryBits i _).1
        suffices h : ∃ s', (List.range (x.parts i).length).foldlM
            (x.visitPart entryBits (x.visit entryBits chunkIndex fuel) i) entered = some s' by
          obtain ⟨s', h⟩ := h
          exact ⟨_, Option.map_eq_some_iff.mpr ⟨s', h, rfl⟩⟩
        by_cases hi : i < x.linker.graph.files.length
        · have hless : x.unvisited entered < x.unvisited s := by
            rw [unvisited, hentered, Finset.coe_insert]
            exact remaining_insert _ (Finset.mem_range.mpr hi) fun hmem => hvisited (Finset.mem_coe.mp hmem)
          have hvisit : ∀ j s, x.unvisited s ≤ x.unvisited entered →
              ∃ s', x.visit entryBits chunkIndex fuel j s = some s' ∧ x.unvisited s' ≤ x.unvisited entered := by
            intro j s hs
            obtain ⟨s', hcall, hle⟩ := ih j s (by omega)
            exact ⟨s', hcall, hle.trans hs⟩
          obtain ⟨s', hloop, -⟩ := Loop.foldlM_returns _ (fun s => x.unvisited s ≤ x.unvisited entered)
            (fun p _ s hs => x.visitPart_returns entryBits hvisit i p s hs) (le_refl (x.unvisited entered))
          exact ⟨s', hloop⟩
        · have hparts : x.parts i = [] := by
            rw [parts, List.getElem?_eq_none (Nat.le_of_not_lt hi)]
            rfl
          rw [hparts]
          exact ⟨entered, rfl⟩
    obtain ⟨s', h⟩ := hreturns
    exact ⟨s', h, remaining_mono _ (x.walk_visit entryBits chunkIndex (fuel + 1) i s s' h).marked.kept⟩

/-! ### What is collected -/

/-- The parts of a file that are put in a range. -/
def Included (d : Dependency) : Prop :=
  x.isFileInChunk entryBits d.sourceIndex = true ∧
    (x.canBeSplit d.sourceIndex = false ∧ d.partIndex < (x.parts d.sourceIndex).length ∨
      x.canBeSplit d.sourceIndex = true ∧ d ∈ x.partsLive ∧
        (d.partIndex = namespaceExportPartIndex ∨ x.shouldIncludePart d.sourceIndex d.partIndex = true))

instance (d : Dependency) : Decidable (x.Included entryBits d) :=
  inferInstanceAs (Decidable (_ ∧ (_ ∧ _ ∨ _ ∧ _ ∧ (_ ∨ _))))

def includes (i p : Nat) : Bool :=
  x.isPartInThisChunk entryBits i p && x.canBeSplit i && p != namespaceExportPartIndex && x.shouldIncludePart i p

theorem sum_partShare (i : Nat) (ps : List Nat) : (ps.map (x.partShare entryBits i)).sum =
    (0, (((ps.filter (x.includes entryBits i)).map fun p => ⟨i, p⟩ : List Dependency) : Multiset Dependency), 0, 0) := by
  induction ps with
  | nil => rfl
  | cons p rest ih =>
    rw [List.map_cons, List.sum_cons, ih, partShare, List.filter_cons, includes]
    split
    · simp only [partTally, Prod.mk_add_mk, add_zero, List.map_cons, Multiset.singleton_add, Multiset.cons_coe]
    · simp only [zero_add]

def partsOf (i : Nat) : List Dependency :=
  (if x.canBeSplit i && x.isPartInThisChunk entryBits i namespaceExportPartIndex then [⟨i, namespaceExportPartIndex⟩] else []) ++
    ((List.range (x.parts i).length).filter (x.includes entryBits i)).map (fun p => ⟨i, p⟩) ++
      if x.isFileInChunk entryBits i && !x.canBeSplit i then (List.range (x.parts i).length).map (fun p => ⟨i, p⟩) else []

theorem share_eq (i : Nat) : x.share entryBits i =
    (if x.isFileInChunk entryBits i then {i} else 0, (x.partsOf entryBits i : Multiset Dependency),
      if x.isFileInChunk entryBits i && !x.canBeSplit i then {.whole i (x.parts i).length} else 0, 0) := by
  have hnamespace : x.namespaceShare entryBits i = (0, ((if x.canBeSplit i &&
      x.isPartInThisChunk entryBits i namespaceExportPartIndex then [⟨i, namespaceExportPartIndex⟩] else [] :
        List Dependency) : Multiset Dependency), 0, 0) := by
    rw [namespaceShare]
    split <;> rfl
  have hfile : x.fileShare entryBits i = (if x.isFileInChunk entryBits i then {i} else 0,
      ((if x.isFileInChunk entryBits i && !x.canBeSplit i then (List.range (x.parts i).length).map (fun p => ⟨i, p⟩)
        else [] : List Dependency) : Multiset Dependency),
      if x.isFileInChunk entryBits i && !x.canBeSplit i then {.whole i (x.parts i).length} else 0, 0) := by
    rw [fileShare]
    cases x.isFileInChunk entryBits i <;> cases x.canBeSplit i <;> rfl
  rw [share, hnamespace, sum_partShare, hfile, partsOf, ← Multiset.coe_add, ← Multiset.coe_add]
  simp only [Prod.mk_add_mk, add_zero, zero_add]

theorem mem_partsOf (i : Nat) (d : Dependency) :
    d ∈ x.partsOf entryBits i ↔ i = d.sourceIndex ∧ x.Included entryBits d := by
  rcases d with ⟨j, p⟩
  have hlength (hlive : ⟨j, p⟩ ∈ x.partsLive) : p < (x.parts j).length := by
    obtain ⟨f, hf, hp⟩ := x.partsLive_valid _ hlive
    have hparts : x.parts j = f.parts := by
      rw [parts, hf]
      rfl
    rwa [hparts]
  simp only [partsOf, List.mem_append, List.mem_ite_nil_right, List.mem_map, List.mem_filter, List.mem_range, includes,
    Included, isPartInThisChunk, List.mem_singleton, Dependency.mk.injEq, Bool.and_eq_true, decide_eq_true_eq, bne_iff_ne,
    Bool.not_eq_true']
  constructor
  · rintro ((⟨⟨hsplit, hin, hlive⟩, rfl, rfl⟩ | ⟨q, ⟨-, ⟨⟨⟨hin, hlive⟩, hsplit⟩, -⟩, hinclude⟩, rfl, rfl⟩) |
      ⟨⟨hin, hsplit⟩, q, hq, rfl, rfl⟩)
    · exact ⟨rfl, hin, .inr ⟨hsplit, hlive, .inl rfl⟩⟩
    · exact ⟨rfl, hin, .inr ⟨hsplit, hlive, .inr hinclude⟩⟩
    · exact ⟨rfl, hin, .inl ⟨hsplit, hq⟩⟩
  · rintro ⟨rfl, hin, ⟨hsplit, hp⟩ | ⟨hsplit, hlive, hinclude⟩⟩
    · exact .inr ⟨⟨hin, hsplit⟩, p, hp, rfl, rfl⟩
    · left
      by_cases hnamespace : p = namespaceExportPartIndex
      · subst hnamespace
        exact .inl ⟨⟨hsplit, hin, hlive⟩, rfl, rfl⟩
      · exact .inr ⟨p, ⟨hlength hlive, ⟨⟨⟨hin, hlive⟩, hsplit⟩, hnamespace⟩, hinclude.resolve_left hnamespace⟩, rfl, rfl⟩

theorem nodup_partsOf (i : Nat) : (x.partsOf entryBits i).Nodup := by
  have hinjective : Function.Injective fun p => (⟨i, p⟩ : Dependency) := fun p q h => (Dependency.mk.injEq .. ▸ h).2
  rw [partsOf]
  cases hsplit : x.canBeSplit i with
  | true =>
    simp only [Bool.true_and, Bool.not_true, Bool.and_false, Bool.false_eq_true, if_false, List.append_nil]
    refine List.Nodup.append ?_ ((List.nodup_range.filter _).map hinjective) ?_
    · split
      · exact List.nodup_singleton _
      · exact List.nodup_nil
    · intro d hd hd'
      obtain ⟨p, hp, rfl⟩ := List.mem_map.mp hd'
      have hzero := List.mem_singleton.mp (List.mem_ite_nil_right.mp hd).2
      simp only [includes, List.mem_filter, Bool.and_eq_true, bne_iff_ne] at hp
      exact hp.2.1.2 (hinjective hzero)
  | false =>
    have hnone : (List.range (x.parts i).length).filter (x.includes entryBits i) = [] := by
      refine List.filter_eq_nil_iff.mpr fun p _ => ?_
      rw [includes, hsplit, Bool.and_false]
      exact Bool.false_ne_true
    rw [hnone]
    simp only [Bool.false_and, Bool.false_eq_true, if_false, List.map_nil, List.append_nil, List.nil_append]
    split
    · exact List.nodup_range.map hinjective
    · exact List.nodup_nil

/-- Every part of a file that is put in a range is put there once. -/
theorem count_partsOf (i : Nat) (d : Dependency) : (x.partsOf entryBits i).count d =
    if d.sourceIndex = i then (if x.Included entryBits d then 1 else 0) else 0 := by
  rw [(x.nodup_partsOf entryBits i).count, ← ite_and]
  simp only [mem_partsOf, eq_comm]

end Context

end Funbun.Bundler.PartOrder
