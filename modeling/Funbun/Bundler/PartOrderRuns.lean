import Funbun.Bundler.PartOrderProofs
import Funbun.Bundler.ChunkProofs
import Mathlib.Algebra.BigOperators.Pi
import Mathlib.Algebra.Order.Group.Multiset

/-! Every part of a chunk is in one range, and files come after those that they import. -/
namespace Funbun.Bundler.PartOrder
open Library TreeShaking CodeSplitting Marking Collecting

namespace Context
variable (x : Context) (entryBits : Finset Nat)

/-! ### The order of a chunk -/

def start (entryPointChunkIndex : Nat → Nat) : Visitor := ⟨∅, [], [], [], entryPointChunkIndex⟩

/-- An import statement of a part of the file -/
def Imports (i j : Nat) : Prop := ∃ p ∈ List.range (x.parts i).length, ∃ recordId ∈ x.recordsOf i p, ∃ record,
  (x.importRecords i)[recordId]? = some record ∧ record.kind = .stmt ∧ record.sourceIndex = some j

theorem follows_of_imports {i j : Nat} (h : x.Imports i j) : j ∈ x.follows entryBits i := by
  obtain ⟨p, hp, recordId, hmem, record, hrecord, hkind, hsource⟩ := h
  refine x.recordTargets_subset entryBits hp hmem ⟨record, hrecord, hsource, .inl hkind, ?_⟩
  rw [Linker.isExternalDynamicImport, hkind]
  simp

/-- What a chunk is made of: the files that are met and belong to it, their parts in one range each, wrapped files in one
piece at the front, and imported files first unless they lead back. -/
structure InJSOrder (c : Chunk) (s : Visitor) : Prop where
  files_nodup : s.files.Nodup
  mem_files : ∀ f, f ∈ s.files ↔ x.isFileInChunk c.entryBits f = true ∧
    ∃ root, (root = runtime ∨ root ∈ c.filesWithPartsInChunk.keys) ∧ x.Reaches c.entryBits root f
  part_once : ∀ d, (s.partsInChunkOrder.filter fun r => r.Contains d).length =
    if d.sourceIndex ∈ s.files ∧ x.Included c.entryBits d then 1 else 0
  wrapped : ∀ f ∈ s.files, x.canBeSplit f = false →
    s.partsPrefix.filter (fun r => r.sourceIndex = f) = [.whole f (x.parts f).length] ∧
      s.partRanges.filter (fun r => r.sourceIndex = f) = []
  before : ∀ f ∈ s.files, ∀ g ∈ s.files, x.Imports f g → ¬ x.Reaches c.entryBits g f → [g, f].Sublist s.files

/-- The ranges with a part are as many as there are of it in all of them. -/
theorem count_coveredAll (ranges : List PartRange) (d : Dependency) :
    (coveredAll ranges).count d = (ranges.filter fun r => r.Contains d).length := by
  induction ranges with
  | nil => rfl
  | cons r rest ih =>
    have hnodup : r.covered.Nodup :=
      (List.nodup_range' (h := by decide)).map fun p q h => (Dependency.mk.injEq .. ▸ h).2
    rw [coveredAll, List.flatMap_cons, ← coveredAll, List.count_append, ih, hnodup.count, List.filter_cons]
    simp only [PartRange.mem_covered, decide_eq_true_eq]
    split
    · rw [List.length_cons, Nat.add_comm]
    · rw [Nat.zero_add]

section Total
variable {x entryBits} {targets : Set Nat} {entryPointChunkIndex : Nat → Nat} {s : Visitor}
  (h : x.Walk entryBits targets 0 (start entryPointChunkIndex) s)
include h

theorem tally_eq : x.tally s = ∑ i ∈ s.visited, x.share entryBits i := by
  have htotal := h.collects.total_eq
  have hnothing : x.tally (start entryPointChunkIndex) = 0 := rfl
  have hnone : s.visited \ (start entryPointChunkIndex).visited = s.visited := Finset.sdiff_empty
  rw [hnothing, hnone, zero_add, zero_add] at htotal
  exact htotal

theorem count_files (f : Nat) :
    s.files.count f = if f ∈ s.visited then (if x.isFileInChunk entryBits f then 1 else 0) else 0 := by
  have hfiles := congrArg Prod.fst (tally_eq h)
  rw [Prod.fst_sum] at hfiles
  have hcount := congrArg (Multiset.count f) hfiles
  rw [Multiset.count_sum'] at hcount
  rw [← Multiset.coe_count, ← Finset.sum_ite_eq s.visited f fun i => if x.isFileInChunk entryBits i then 1 else 0]
  refine hcount.trans (Finset.sum_congr rfl fun i _ => ?_)
  rw [share_eq]
  dsimp only
  by_cases hin : x.isFileInChunk entryBits i = true
  · rw [if_pos hin, if_pos hin, Multiset.count_singleton]
  · rw [if_neg hin, if_neg hin, ite_self, Multiset.count_zero]

theorem count_parts (d : Dependency) : (coveredAll s.partsInChunkOrder).count d =
    if d.sourceIndex ∈ s.visited then (if x.Included entryBits d then 1 else 0) else 0 := by
  have hparts := congrArg (fun total : Tally => total.2.1) (tally_eq h)
  simp only [Prod.snd_sum, Prod.fst_sum] at hparts
  have hcount := congrArg (Multiset.count d) hparts
  rw [Multiset.count_sum'] at hcount
  rw [← Multiset.coe_count, ← Finset.sum_ite_eq s.visited d.sourceIndex fun _ => if x.Included entryBits d then 1 else 0]
  refine hcount.trans (Finset.sum_congr rfl fun i _ => ?_)
  rw [share_eq, Multiset.coe_count, count_partsOf]

theorem countP_initial (p : PartRange → Bool) {f : Nat} (hp : ∀ i, p (.whole i (x.parts i).length) = decide (f = i)) :
    (s.partsPrefix.filter fun r => !x.canBeSplit r.sourceIndex).countP p =
      if f ∈ s.visited then (if x.isFileInChunk entryBits f && !x.canBeSplit f then 1 else 0) else 0 := by
  have hprefix := congrArg (fun total : Tally => total.2.2.1) (tally_eq h)
  simp only [Prod.snd_sum, Prod.fst_sum] at hprefix
  have hcount := congrArg (Multiset.countPAddMonoidHom fun r => p r = true) hprefix
  simp only [map_sum, Multiset.coe_countPAddMonoidHom, tally, Multiset.coe_countP, Bool.decide_eq_true] at hcount
  rw [← Finset.sum_ite_eq s.visited f fun i => if x.isFileInChunk entryBits i && !x.canBeSplit i then 1 else 0]
  refine hcount.trans (Finset.sum_congr rfl fun i _ => ?_)
  have hone : Multiset.countP (fun r => p r = true) {PartRange.whole i (x.parts i).length} = if f = i then 1 else 0 := by
    rw [← Multiset.coe_singleton, Multiset.coe_countP, List.countP_singleton, Bool.decide_eq_true, hp i]
    simp
  rw [share_eq]
  dsimp only
  by_cases hwrapped : (x.isFileInChunk entryBits i && !x.canBeSplit i) = true
  · rw [if_pos hwrapped, if_pos hwrapped, hone]
  · rw [if_neg hwrapped, if_neg hwrapped, ite_self, Multiset.countP_zero]

/-- A wrapped file is one range of the prefix. -/
theorem wrapped_ranges {f : Nat} (hf : f ∈ s.visited) (hin : x.isFileInChunk entryBits f = true)
    (hsplit : x.canBeSplit f = false) :
    s.partsPrefix.filter (fun r => r.sourceIndex = f) = [.whole f (x.parts f).length] ∧
      s.partRanges.filter (fun r => r.sourceIndex = f) = [] := by
  have hwhole (ranges : List PartRange) : ranges.filter (fun r => r.sourceIndex = f) =
      (ranges.filter fun r => !x.canBeSplit r.sourceIndex).filter fun r => r.sourceIndex = f := by
    rw [List.filter_filter]
    refine List.filter_congr fun r _ => ?_
    by_cases hr : r.sourceIndex = f
    · simp [hr, hsplit]
    · simp [hr]
  have hone : (if f ∈ s.visited then (if x.isFileInChunk entryBits f && !x.canBeSplit f then 1 else 0) else 0) = 1 := by
    rw [if_pos hf, hin, hsplit]
    rfl
  constructor
  · rw [hwhole]
    have hlength := (countP_initial h (fun r => r.sourceIndex = f) fun i => by simp [PartRange.whole, eq_comm]).trans hone
    rw [List.countP_eq_length_filter] at hlength
    have hmem : PartRange.whole f (x.parts f).length ∈ s.partsPrefix.filter fun r => !x.canBeSplit r.sourceIndex := by
      have hcount := (countP_initial h (fun r => r = .whole f (x.parts f).length) fun i => by
        by_cases hfi : f = i
        · simp [hfi]
        · simp [PartRange.whole, hfi, eq_comm]).trans hone
      obtain ⟨r, hr, heq⟩ := List.countP_pos_iff.mp (hcount ▸ Nat.one_pos)
      rwa [of_decide_eq_true heq] at hr
    obtain ⟨r, hr⟩ := List.length_eq_one_iff.mp hlength
    have hsource : decide ((PartRange.whole f (x.parts f).length).sourceIndex = f) = true := decide_eq_true rfl
    have hfilter := List.mem_filter (p := fun r => decide (r.sourceIndex = f)).mpr ⟨hmem, hsource⟩
    rw [hr] at hfilter ⊢
    rw [List.mem_singleton.mp hfilter]
  · have hrest := congrArg (fun total : Tally => total.2.2.2) (tally_eq h)
    simp only [Prod.snd_sum, share_eq, Finset.sum_const_zero] at hrest
    have hnil : s.partRanges.filter (fun r => !x.canBeSplit r.sourceIndex) = [] := Multiset.coe_eq_zero _ |>.mp hrest
    rw [hwhole, hnil, List.filter_nil]

end Total

theorem mem_chunkOrderArray (c : Chunk) (i : Nat) :
    i ∈ (x.chunkOrderArray c).map Order.sourceIndex ↔ i ∈ c.filesWithPartsInChunk.keys := by
  rw [chunkOrderArray, Order.sort, ((List.perm_insertionSort _ _).map Order.sourceIndex).mem_iff, List.map_map]
  simp

def roots (c : Chunk) : Set Nat := {i | i = runtime ∨ i ∈ c.filesWithPartsInChunk.keys}

/-- The visited files are those that the roots lead to. -/
theorem mem_visited {c : Chunk} {own : Tally} {entryPointChunkIndex : Nat → Nat} {s : Visitor}
    (h : x.Walk c.entryBits (roots c) own (start entryPointChunkIndex) s) (f : Nat) :
    f ∈ s.visited ↔ ∃ root, (root = runtime ∨ root ∈ c.filesWithPartsInChunk.keys) ∧ x.Reaches c.entryBits root f := by
  constructor
  · intro hf
    refine h.marked.forced {f | ∃ root ∈ roots c, x.Reaches c.entryBits root f} ⟨?_, ?_, ?_⟩ (Finset.mem_coe.mpr hf)
    · rintro i hi
      exact absurd (Finset.mem_coe.mp hi) (Finset.notMem_empty i)
    · exact fun root hroot => ⟨root, hroot, .refl⟩
    · rintro i ⟨root, hroot, hreaches⟩ - j hj
      exact ⟨root, hroot, hreaches.tail hj⟩
  · rintro ⟨root, hroot, hreaches⟩
    induction hreaches with
    | refl => exact h.marked.reached hroot
    | tail _ hstep ih =>
      exact h.marked.closed _ ih (fun hmem => absurd (Finset.mem_coe.mp hmem) (Finset.notMem_empty _)) hstep

/-- The order of a chunk, whatever its files are. -/
theorem findImportedPartsInJSOrder_returns (entryPointChunkIndex : Nat → Nat) (c : Chunk) (chunkIndex : Nat) {fuel : Nat}
    (hfuel : x.linker.graph.files.length < fuel) :
    ∃ s, x.findImportedPartsInJSOrder entryPointChunkIndex c chunkIndex fuel = some s ∧ x.InJSOrder c s := by
  have hless : ∀ s : Visitor, x.unvisited s < fuel := fun s =>
    ((remaining_le_card _ _).trans_eq (Finset.card_range _)).trans_lt hfuel
  obtain ⟨s, hs, -⟩ := Loop.foldlM_returns (runtime :: (x.chunkOrderArray c).map Order.sourceIndex) (fun _ => True)
    (f := fun s i => x.visit c.entryBits chunkIndex fuel i s) (fun i _ s _ => by
      obtain ⟨s', hs', -⟩ := x.visit_returns c.entryBits chunkIndex fuel i s (hless s)
      exact ⟨s', hs', trivial⟩) (s := start entryPointChunkIndex) trivial
  refine ⟨s, hs, ?_⟩
  have hwalk : x.Walk c.entryBits (roots c) 0 (start entryPointChunkIndex) s := by
    refine (Walk.foldlM (fun i => {i}) (fun _ => 0) _
      (fun i _ s s' h => x.walk_visit c.entryBits chunkIndex fuel i s s' h) hs).congr ?_ ?_
    · ext i
      simp [roots, mem_chunkOrderArray]
    · rw [List.map_const', List.sum_replicate, nsmul_zero]
  have hstart : x.InOrder c.entryBits ∅ (start entryPointChunkIndex) := by
    rw [InOrder, start, Finset.coe_empty]
    exact .start
  have horder := Loop.foldlM_keeps (x.InOrder c.entryBits ∅)
    (fun i _ s s' hs h => x.inOrder_visit c.entryBits chunkIndex fuel i ∅ (fun _ hj => hj.elim) s s' hs h) hstart hs
  have hmem (f : Nat) : f ∈ s.files ↔ f ∈ s.visited ∧ x.isFileInChunk c.entryBits f = true := by
    rw [← List.count_pos_iff, count_files hwalk]
    by_cases hf : f ∈ s.visited <;> by_cases hin : x.isFileInChunk c.entryBits f = true <;> simp [hf, hin]
  refine ⟨?_, ?_, ?_, ?_, ?_⟩
  · refine List.nodup_iff_count_le_one.mpr fun f => ?_
    rw [count_files hwalk]
    split
    · split
      · exact Nat.le_refl 1
      · exact Nat.zero_le 1
    · exact Nat.zero_le 1
  · intro f
    rw [hmem, mem_visited x hwalk, and_comm]
  · intro d
    rw [← count_coveredAll, count_parts hwalk, ← ite_and]
    refine if_congr ?_ rfl rfl
    rw [hmem]
    exact ⟨fun h => ⟨⟨h.1, h.2.1⟩, h.2⟩, fun h => ⟨h.1.1, h.2⟩⟩
  · intro f hf hsplit
    exact wrapped_ranges hwalk ((hmem f).mp hf).1 ((hmem f).mp hf).2 hsplit
  · intro f hf g hg himports hreaches
    exact (horder.ordered f hf g (x.follows_of_imports c.entryBits himports) ((hmem g).mp hg).2).resolve_right hreaches

/-! ### The chunks of a linker -/

theorem bitsOf : x.linker.BitsOf x.columns.entryBits := by
  obtain ⟨fuel, hfuel, hcolumns⟩ := x.columns_marked
  obtain ⟨columns, hcolumns', hbits⟩ := x.linker.markEntryPointsReachable_spec hfuel
  cases hcolumns.symm.trans hcolumns'
  exact hbits

/-- Without code splitting a chunk has the bit of its entry point. -/
def OwnBit (c : Chunk) : Prop := c.entryBits = {c.entryPoint.entryPointId}

theorem ownBit_addToEntryPoint (s : Chunks) (i e : Nat) {m : ArrayMap ChunkKey Chunk}
    (h : ∀ key c, (key, c) ∈ m.entries → OwnBit c) :
    ∀ key c, (key, c) ∈ (Linker.addToEntryPoint s i m e).entries → OwnBit c := by
  rw [Linker.addToEntryPoint]
  split
  · exact h
  · rename_i j _
    intro key c hc
    obtain ⟨k, hk⟩ := List.mem_iff_getElem?.mp hc
    have hmodify : (m.modifyAt j fun c => c.addFile i).entries = m.entries.modify j fun e => (e.1, e.2.addFile i) := rfl
    rw [hmodify, List.getElem?_modify] at hk
    obtain ⟨⟨key₀, c₀⟩, hget, heq⟩ := Option.map_eq_some_iff.mp hk
    have hown := h key₀ c₀ (List.mem_of_getElem? hget)
    split at heq
    · cases heq
      exact hown
    · cases heq
      exact hown

theorem ownBit_addFile {l : Linker} (hsplitting : l.codeSplitting = false) (s : Chunks) (files : List Nat)
    {m : ArrayMap ChunkKey Chunk} (h : ∀ key c, (key, c) ∈ m.entries → OwnBit c) :
    ∀ key c, (key, c) ∈ (files.foldl (l.addFile s) m).entries → OwnBit c := by
  induction files generalizing m with
  | nil => exact h
  | cons i rest ih =>
    refine ih ?_
    rw [Linker.addFile, hsplitting]
    split
    · simp only [Bool.false_eq_true, if_false]
      generalize (List.range l.entryPoints.length).filter (· ∈ s.entryBits i) = es
      induction es generalizing m with
      | nil => exact h
      | cons e es ihes => exact ihes (ownBit_addToEntryPoint s i e h)
    · exact h

/-- A file with parts is in a chunk if its bits say so. -/
theorem mem_chunk {key : ChunkKey} {c : Chunk} (hc : x.jsChunks.get? key = some c) (f : Nat) :
    f ∈ c.filesWithPartsInChunk.keys ↔ x.linker.HasParts f ∧ x.isFileInChunk c.entryBits f = true := by
  have hbits := x.bitsOf
  have hentered := hbits.entered
  obtain ⟨e, i, hjs⟩ : ∃ e i, x.linker.JsEntry e i := by
    by_contra hnone
    have hempty : (x.linker.addEntryPoints x.columns.entryBits).jsChunks.entries = [] := by
      refine List.eq_nil_iff_forall_not_mem.mpr fun entry hentry => ?_
      obtain ⟨e, i, -, hjs, -⟩ := hentered.found entry.1 entry.2 ((ArrayMap.get?_eq_some _).mpr hentry)
      exact hnone ⟨e, i, hjs⟩
    have hlength : ¬ 0 < (x.linker.addEntryPoints x.columns.entryBits).jsChunks.entries.length := by
      rw [hempty]
      exact Nat.lt_irrefl 0
    rw [jsChunks, Linker.computeChunks, if_neg hlength, ArrayMap.get?_eq_some, hempty] at hc
    exact absurd hc List.not_mem_nil
  rw [jsChunks, Linker.computeChunks_jsChunks hentered hjs] at hc
  cases hsplitting : x.linker.codeSplitting with
  | true =>
    obtain ⟨-, hcbits, hfiles⟩ := (Linker.addFiles_shared hsplitting hentered x.linker.reachableFiles).chunks key c hc
    rw [hfiles, hentered.bits, isFileInChunk, hsplitting, hcbits]
    constructor
    · rintro ⟨-, hparts, heq⟩
      refine ⟨hparts, ?_⟩
      rw [hparts.2, heq]
      simp
    · rintro ⟨hparts, hin⟩
      refine ⟨x.linker.filesLive_reachable f hparts.1, hparts, ?_⟩
      rw [hparts.2] at hin
      exact (beq_iff_eq.mp hin).symm
  | false =>
    obtain ⟨c₀, hc₀, hentry, hfiles⟩ := (Linker.addFiles_listed hsplitting hentered x.linker.reachableFiles).chunks key c hc
    obtain ⟨e', i', he', hjs', hkey', rfl, -⟩ := hentered.found key c₀ hc₀
    have hown : c.entryBits = {e'} := by
      have hall := ownBit_addFile hsplitting (x.linker.addEntryPoints x.columns.entryBits) x.linker.reachableFiles
        (m := (x.linker.addEntryPoints x.columns.entryBits).jsChunks) (fun key c hc => by
          obtain ⟨e, i, -, -, -, rfl, -⟩ := hentered.found key c ((ArrayMap.get?_eq_some _).mpr hc)
          rfl) key c ((ArrayMap.get?_eq_some _).mp hc)
      rw [hall, hentry]
      rfl
    have hin : x.isFileInChunk c.entryBits f = true ↔ e' ∈ x.columns.entryBits f := by
      rw [isFileInChunk, hsplitting, hown]
      simp [Finset.singleton_inter]
    rw [hfiles, hin, hentered.bits]
    constructor
    · rintro (hf | ⟨-, hparts, e'', he'', hbit, hplace⟩)
      · exact absurd hf List.not_mem_nil
      · refine ⟨hparts, (hbits.mem_iff hjs'.1).mpr ?_⟩
        -- entry points with one chunk reach each other
        obtain ⟨j, hj, hkeyj⟩ := hplace
        obtain ⟨i'', -, hjs''⟩ := hentered.entry e'' j hj
        obtain ⟨j', hj', hkey''⟩ := hentered.placed e'' i'' he'' hjs''
        cases hj.symm.trans hj'
        have hsame := Linker.bits_of_chunkKey hsplitting ((Option.some.inj (hkeyj.symm.trans hkey'')).symm.trans hkey'.symm)
        have hreach := hbits.reachEachOther hjs'.1 hjs''.1 hsame.2
        exact hreach.1.trans ((hbits.mem_iff hjs''.1).mp hbit)
    · rintro ⟨hparts, hbit⟩
      refine .inr ⟨x.linker.filesLive_reachable f hparts.1, hparts, e', he', hbit, ?_⟩
      obtain ⟨j, hj, hplace⟩ := hentered.placed e' i' he' hjs'
      exact ⟨j, hj, hkey' ▸ hplace⟩

/-- **Every chunk is complete and in order**, whatever the graph. -/
theorem findImportedPartsInJSOrder_exact {key : ChunkKey} {c : Chunk} (hc : x.jsChunks.get? key = some c)
    (entryPointChunkIndex : Nat → Nat) (chunkIndex : Nat) {fuel : Nat} (hfuel : x.linker.graph.files.length < fuel) :
    ∃ s, x.findImportedPartsInJSOrder entryPointChunkIndex c chunkIndex fuel = some s ∧
      (∀ f ∈ c.filesWithPartsInChunk.keys, s.files.count f = 1) ∧
      (∀ f ∈ s.files, f ∈ c.filesWithPartsInChunk.keys ∨ x.linker.hasCss f = true ∨ f ∉ x.linker.filesLive) ∧
      x.InJSOrder c s := by
  obtain ⟨s, hs, horder⟩ := x.findImportedPartsInJSOrder_returns entryPointChunkIndex c chunkIndex hfuel
  refine ⟨s, hs, fun f hf => ?_, fun f hf => ?_, horder⟩
  · refine List.count_eq_one_of_mem horder.files_nodup ((horder.mem_files f).mpr ?_)
    exact ⟨((x.mem_chunk hc f).mp hf).2, f, .inr hf, .refl⟩
  · have hin := ((horder.mem_files f).mp hf).1
    by_cases hlive : f ∈ x.linker.filesLive
    · cases hcss : x.linker.hasCss f with
      | true => exact .inr (.inl rfl)
      | false => exact .inl ((x.mem_chunk hc f).mpr ⟨⟨hlive, hcss⟩, hin⟩)
    · exact .inr (.inr hlive)

/-! ### A cycle of an import and a `require` -/

def examplePart (importRecordIndices : List Nat) : Part := ⟨false, .none, importRecordIndices, false, []⟩

def exampleFile (records : List ImportRecord) (entryPointKind : EntryPointKind) : File where
  parts := [examplePart [], examplePart (List.range records.length)]
  importRecords := records
  hasCss := false
  loaderIsHtml := false
  sideEffects := .hasSideEffects
  entryPointKind := entryPointKind
  wrap := .esm

/-- The entry point calls `require` for a file that imports it. -/
def requireLinker : Linker where
  graph := ⟨[exampleFile [] .none, exampleFile [⟨.require, some 2, false⟩] .userSpecified, exampleFile [⟨.stmt, some 1, false⟩] .none],
    ⟨true, false⟩, by simp [exampleFile], by simp [exampleFile, examplePart], by simp [exampleFile, examplePart]⟩
  codeSplitting := true
  entryPoints := [1]
  filesLive := {1, 2}
  reachableFiles := [0, 2, 1]
  isBrowserTarget _ := false
  couldBeBrowserTargetFromServerBuild := false
  entryPoints_live := by decide
  filesLive_valid := by decide
  filesLive_reachable := by decide

def requireContext : Context where
  linker := requireLinker
  columns := (requireLinker.markEntryPointsReachable 4).getD .init
  columns_marked := ⟨4, by decide, rfl⟩
  partsLive := {⟨1, 0⟩, ⟨1, 1⟩, ⟨2, 0⟩, ⟨2, 1⟩}
  stmts _ := []
  stableSourceIndices i := i
  isScb := ∅
  partsLive_valid := by decide

theorem requireContext_imports {i j : Nat} (h : requireContext.Imports i j) : i = 2 ∧ j = 1 := by
  obtain ⟨p, hp, recordId, -, record, hrecord, hkind, hsource⟩ := h
  match i, hp, hrecord with
  | 0, _, hrecord => exact nomatch (List.mem_of_getElem? hrecord : record ∈ [])
  | 1, _, hrecord =>
    obtain rfl := List.mem_singleton.mp (List.mem_of_getElem? hrecord : record ∈ [_])
    exact nomatch hkind
  | 2, _, hrecord =>
    obtain rfl := List.mem_singleton.mp (List.mem_of_getElem? hrecord : record ∈ [_])
    exact ⟨rfl, (Option.some.inj hsource).symm⟩
  | _ + 3, hp, _ => exact nomatch List.mem_range.mp hp

theorem findImportedPartsInJSOrder_exact_require : ∃ c s, requireContext.jsChunks.get? ⟨none, {0}⟩ = some c ∧
    requireContext.findImportedPartsInJSOrder (fun _ => 0) c 0 4 = some s ∧ requireContext.InJSOrder c s := by
  obtain ⟨c, hc⟩ := Option.isSome_iff_exists.mp (show (requireContext.jsChunks.get? ⟨none, {0}⟩).isSome = true by decide)
  obtain ⟨s, hs, -, -, horder⟩ := requireContext.findImportedPartsInJSOrder_exact hc (fun _ => 0) 0
    (show requireContext.linker.graph.files.length < 4 by decide)
  exact ⟨c, s, hc, hs, horder⟩

/-- The one import statement is of a file that comes last. -/
theorem findImportedPartsInJSOrder_importedLast : ∃ c s, requireContext.jsChunks.get? ⟨none, {0}⟩ = some c ∧
    requireContext.findImportedPartsInJSOrder (fun _ => 0) c 0 4 = some s ∧
      (∀ i, ¬ Relation.TransGen requireContext.Imports i i) ∧ requireContext.Imports 2 1 ∧
        1 ∈ c.filesWithPartsInChunk.keys ∧ 2 ∈ c.filesWithPartsInChunk.keys ∧ ¬ [1, 2].Sublist s.files := by
  refine ⟨_, _, rfl, rfl, fun i h => ?_, ?_, by decide, by decide, by decide⟩
  · obtain ⟨_, hfirst, -⟩ := Relation.TransGen.head'_iff.mp h
    obtain ⟨_, -, hlast⟩ := Relation.TransGen.tail'_iff.mp h
    have htwo := (requireContext_imports hfirst).1
    have hone := (requireContext_imports hlast).2
    omega
  · exact ⟨1, by decide, 0, by decide, _, rfl, rfl, rfl⟩

end Context

end Funbun.Bundler.PartOrder
