import Mathlib.Algebra.Order.Group.Multiset
import Funbun.Library.Collecting
import Funbun.Library.Loop
import Funbun.Library.Search
import Funbun.Bundler.ChunkHashes

/-! What is mixed into the hash of a chunk: every chunk that it leads to, once. -/
namespace Funbun.Bundler.ChunkHashes
open Library Marking Collecting Fuel

namespace Linker
variable (l : Linker)

/-- The chunk that a piece is for -/
def target? (query : Query) : Option Nat :=
  match query.kind with
  | .chunk => some query.index
  | .scb => l.entryPointChunkIndex[query.index]?
  | .none | .asset | .htmlImport => none

def Leads (chunks : List Chunk) (i j : Nat) : Prop :=
  ∃ c, chunks[i]? = some c ∧ (j ∈ c.crossChunkImports ∨ ∃ query ∈ c.pieceQueries, l.target? query = some j)

/-- Every index is in the range of its table. -/
structure InRange (chunks : List Chunk) : Prop where
  imports : ∀ c ∈ chunks, ∀ j ∈ c.crossChunkImports, j < chunks.length
  pieces : ∀ c ∈ chunks, ∀ query ∈ c.pieceQueries, query.kind = .chunk ∨ query.kind = .scb →
    ∃ j < chunks.length, l.target? query = some j
  assets : ∀ c ∈ chunks, ∀ query ∈ c.pieceQueries, query.kind = .asset →
    ∃ file files, l.additionalFiles[query.index]? = some (file :: files) ∧
      ∀ id, file = .outputFile id → id < l.destPaths.length

/-- The chunks that are mixed in by these writes, each with its hash -/
def mixed (writes : List Write) : List (Nat × UInt64) :=
  writes.filterMap fun
    | .assetPath _ => none
    | .isolatedHash index hash => some (index, hash)

def share (chunks : List Chunk) (i : Nat) : Multiset (Nat × UInt64) :=
  {(i, ((chunks[i]?).map Chunk.isolatedHash).getD 0)}

/-- What a call owes for its targets -/
structure Mixes (chunks : List Chunk) (targets : Set Nat) (st st' : Walk) : Prop where
  marked : Marked (fun i => {j | l.Leads chunks i j}) targets ↑st.chunkVisitMap ↑st'.chunkVisitMap
  collects : Collects (share chunks) 0 st.chunkVisitMap st'.chunkVisitMap (mixed st.hash : Multiset _) (mixed st'.hash)

theorem sequential_mixes (chunks : List Chunk) : Sequential (l.Mixes chunks) where
  nothing _ := ⟨.nothing _, .nothing⟩
  append := fun h h' => ⟨h.marked.append h'.marked, (h.collects.append h'.collects).congr (add_zero 0)⟩

variable {l} {chunks : List Chunk}

theorem mixed_append (writes writes' : List Write) : mixed (writes ++ writes') = mixed writes ++ mixed writes' :=
  List.filterMap_append

variable {c : Chunk} {i : Nat} {st st' : Walk}

/-- A piece that leads to no chunk mixes in none. -/
theorem visitPiece_of_target?_eq_none (h : l.InRange chunks) (hc : c ∈ chunks) {query : Query}
    (hquery : query ∈ c.pieceQueries) (htarget : l.target? query = none) (st : Walk) :
    ∃ st', (∀ visit, l.visitPiece visit c st query = some st') ∧ l.Mixes chunks ∅ st st' := by
  cases hkind : query.kind with
  | none | htmlImport =>
    refine ⟨st, fun visit => ?_, (l.sequential_mixes chunks).nothing st⟩
    rw [visitPiece, hkind]
  | chunk =>
    obtain ⟨j, -, hj⟩ := h.pieces c hc query hquery (.inl hkind)
    rw [htarget] at hj
    cases hj
  | scb =>
    obtain ⟨j, -, hj⟩ := h.pieces c hc query hquery (.inr hkind)
    rw [htarget] at hj
    cases hj
  | asset =>
    obtain ⟨file, files, hfiles, hid⟩ := h.assets c hc query hquery hkind
    cases file with
    | sourceIndex index =>
      refine ⟨st, fun visit => ?_, (l.sequential_mixes chunks).nothing st⟩
      simp [visitPiece, hkind, assetWrite, hfiles]
    | outputFile id =>
      have hpath := List.getElem?_eq_getElem (hid id rfl)
      refine ⟨_, fun visit => by simp [visitPiece, hkind, assetWrite, hfiles, hpath]; rfl, ?_⟩
      refine ⟨.nothing _, ?_⟩
      rw [mixed_append]
      show Collects _ 0 st.chunkVisitMap st.chunkVisitMap (mixed st.hash : Multiset (Nat × UInt64)) (mixed st.hash ++ [] : List _)
      rw [List.append_nil]
      exact .nothing

/-- A piece mixes in what its chunk leads to. -/
theorem visitPiece_spec (h : l.InRange chunks) (hc : c ∈ chunks) {query : Query}
    (hquery : query ∈ c.pieceQueries) {visit : Nat → Nat → Walk → Option Walk} (st : Walk)
    (hvisit : ∀ j < chunks.length, ∃ st', Settles (fun fuel => visit fuel j st) st' ∧ l.Mixes chunks {j} st st') :
    ∃ st', Settles (fun fuel => l.visitPiece (visit fuel) c st query) st' ∧
      l.Mixes chunks {j | l.target? query = some j} st st' := by
  cases htarget : l.target? query with
  | none =>
    obtain ⟨st', hvisited, hmixes⟩ := visitPiece_of_target?_eq_none h hc hquery htarget st
    refine ⟨st', .of_forall fun fuel => hvisited (visit fuel), ?_⟩
    have hnothing : {j | (none : Option Nat) = some j} = ∅ := by
      ext j
      simp
    rwa [hnothing]
  | some j =>
    have hsingle : {j' | some j = some j'} = ({j} : Set Nat) := by
      ext j'
      simp [eq_comm]
    have hcall : ∀ fuel, l.visitPiece (visit fuel) c st query = visit fuel j st := by
      intro fuel
      cases hkind : query.kind with
      | none | asset | htmlImport => simp [target?, hkind] at htarget
      | chunk =>
        obtain rfl : query.index = j := by simpa [target?, hkind] using htarget
        rw [visitPiece, hkind]
      | scb =>
        have hentry : l.entryPointChunkIndex[query.index]? = some j := by simpa [target?, hkind] using htarget
        rw [visitPiece, hkind, hentry]
        rfl
    have hj : j < chunks.length := by
      have hkind : query.kind = .chunk ∨ query.kind = .scb := by
        cases hkind : query.kind with
        | none | asset | htmlImport => simp [target?, hkind] at htarget
        | chunk => exact .inl rfl
        | scb => exact .inr rfl
      obtain ⟨j', hj', htarget'⟩ := h.pieces c hc query hquery hkind
      rw [htarget] at htarget'
      exact Option.some.inj htarget' ▸ hj'
    obtain ⟨st', hsettles, hmixes⟩ := hvisit j hj
    refine ⟨st', ?_, hsingle ▸ hmixes⟩
    show Settles (fun fuel => l.visitPiece (visit fuel) c st query) st'
    rwa [funext hcall]

theorem setOf_leads (hc : chunks[i]? = some c) :
    {j | l.Leads chunks i j} =
      (⋃ j ∈ c.crossChunkImports, {j}) ∪ ⋃ query ∈ c.pieceQueries, {j | l.target? query = some j} := by
  ext j
  simp [Leads, hc]

/-- The walk ends. It mixes in what its start leads to, and what was visited before only once. -/
theorem walk_spec (h : l.InRange chunks) (n i : Nat) (hi : i < chunks.length) (st : Walk)
    (hn : remaining (Finset.range chunks.length) ↑st.chunkVisitMap < n) :
    ∃ st', Settles (fun fuel => l.appendIsolatedHashesForImportedChunks chunks fuel i st) st' ∧
      l.Mixes chunks {i} st st' := by
  induction n generalizing i st with
  | zero => exact absurd hn (Nat.not_lt_zero _)
  | succ n ih =>
    by_cases hvisited : i ∈ st.chunkVisitMap
    · refine ⟨st, .of_succ (.of_forall fun fuel => if_pos hvisited), .already (Finset.mem_coe.mpr hvisited), .nothing⟩
    have hc := List.getElem?_eq_getElem hi
    generalize chunks[i] = c at hc
    have hmem : c ∈ chunks := List.mem_of_getElem? hc
    let visit fuel := l.appendIsolatedHashesForImportedChunks chunks fuel
    -- every call below is from here, with less to visit
    let I : Walk → Prop := fun s => remaining (Finset.range chunks.length) ↑s.chunkVisitMap < n
    have hcall : ∀ j < chunks.length, ∀ s, I s →
        ∃ s', Settles (fun fuel => visit fuel j s) s' ∧ l.Mixes chunks {j} s s' ∧ I s' := by
      intro j hj s hs
      obtain ⟨s', hsettles, hmixes⟩ := ih j hj s hs
      exact ⟨s', hsettles, hmixes, (remaining_mono _ hmixes.marked.kept).trans_lt hs⟩
    let st₁ : Walk := {st with chunkVisitMap := insert i st.chunkVisitMap}
    have hinsert : (↑st₁.chunkVisitMap : Set Nat) = insert i ↑st.chunkVisitMap := Finset.coe_insert ..
    have hst₁ : I st₁ := by
      have hless := remaining_insert _ (Finset.mem_range.mpr hi) (Finset.mem_coe.not.mpr hvisited)
      show remaining _ _ < n
      rw [hinsert]
      exact Nat.lt_of_lt_of_le hless (Nat.le_of_lt_succ hn)
    obtain ⟨st₂, hsettles₂, hmixes₂, hst₂, -⟩ := Search.settles_foldlM (l.sequential_mixes chunks)
      (fun j => {j}) I (fun _ _ => True) (fun _ _ _ _ _ _ => trivial) c.crossChunkImports
      (f := fun fuel st chunkIndex => visit fuel chunkIndex st) (fun j hj s hs => by
        obtain ⟨s', hsettles, hmixes, hs'⟩ := hcall j (h.imports c hmem j hj) s hs
        exact ⟨s', hsettles, hmixes, hs', trivial⟩) st₁ hst₁
    obtain ⟨st₃, hsettles₃, hmixes₃, -, -⟩ := Search.settles_foldlM (l.sequential_mixes chunks)
      (fun query => {j | l.target? query = some j}) I (fun _ _ => True) (fun _ _ _ _ _ _ => trivial) c.pieceQueries
      (f := fun fuel => l.visitPiece (visit fuel) c) (fun query hquery s hs => by
        obtain ⟨s', hsettles, hmixes⟩ := visitPiece_spec h hmem hquery s fun j hj => by
          obtain ⟨s', hsettles, hmixes, -⟩ := hcall j hj s hs
          exact ⟨s', hsettles, hmixes⟩
        exact ⟨s', hsettles, hmixes, (remaining_mono _ hmixes.marked.kept).trans_lt hs, trivial⟩) st₂ hst₂
    have hmixes := (l.sequential_mixes chunks).append hmixes₂ hmixes₃
    rw [← setOf_leads hc] at hmixes
    refine ⟨{st₃ with hash := st₃.hash ++ [.isolatedHash i c.isolatedHash]}, .of_succ ?_, ?_, ?_⟩
    · have hrun : ∀ fuel, l.appendIsolatedHashesForImportedChunks chunks (fuel + 1) i st =
          (c.crossChunkImports.foldlM (fun st chunkIndex => visit fuel chunkIndex st) st₁).bind fun st =>
            (c.pieceQueries.foldlM (l.visitPiece (visit fuel) c) st).bind fun st =>
              some {st with hash := st.hash ++ [.isolatedHash i c.isolatedHash]} := by
        intro fuel
        rw [appendIsolatedHashesForImportedChunks, if_neg hvisited, hc]
        rfl
      show Settles (fun fuel => l.appendIsolatedHashesForImportedChunks chunks (fuel + 1) i st) _
      rw [funext hrun]
      exact hsettles₂.bind (hsettles₃.bind (.of_forall fun fuel => rfl))
    · refine .explore (by simpa using hvisited) ?_
      have hmarked := hmixes.marked
      rwa [hinsert] at hmarked
    · refine .explore hvisited ?_
      rw [mixed_append]
      have hown : share chunks i = ((mixed [.isolatedHash i c.isolatedHash] : List _) : Multiset _) := by
        rw [share, hc]
        rfl
      rw [← Multiset.coe_add, ← hown]
      have hboth := hmixes.collects.append (.emit (share chunks i))
      rwa [zero_add] at hboth

variable (l) in
/-- What one walk from a chunk mixes in -/
structure Covers (chunks : List Chunk) (i : Nat) (writes : List Write) : Prop where
  once : (writes.filterMap Write.index?).Nodup
  mem_iff : ∀ j, j ∈ writes.filterMap Write.index? ↔ Relation.ReflTransGen (l.Leads chunks) i j
  hashes : ∀ j hash, .isolatedHash j hash ∈ writes → ∃ c, chunks[j]? = some c ∧ c.isolatedHash = hash

theorem map_fst_mixed (writes : List Write) : (mixed writes).map Prod.fst = writes.filterMap Write.index? := by
  rw [mixed, List.map_filterMap]
  congr
  funext w
  cases w <;> rfl

theorem leads_lt (h : l.InRange chunks) {i j : Nat} (hleads : l.Leads chunks i j) : j < chunks.length := by
  obtain ⟨c, hc, himport | ⟨query, hquery, htarget⟩⟩ := hleads
  · exact h.imports c (List.mem_of_getElem? hc) j himport
  · have hkind : query.kind = .chunk ∨ query.kind = .scb := by
      cases hkind : query.kind with
      | none | asset | htmlImport => simp [target?, hkind] at htarget
      | chunk => exact .inl rfl
      | scb => exact .inr rfl
    obtain ⟨j', hj', htarget'⟩ := h.pieces c (List.mem_of_getElem? hc) query hquery hkind
    rw [htarget] at htarget'
    exact Option.some.inj htarget' ▸ hj'

/-- A walk with nothing visited ends, and covers what its start leads to. -/
theorem walk_covers (h : l.InRange chunks) (hi : i < chunks.length) :
    ∃ walk, Settles (fun fuel => l.appendIsolatedHashesForImportedChunks chunks fuel i ⟨[], ∅⟩) walk ∧
      l.Covers chunks i walk.hash := by
  obtain ⟨walk, hsettles, hmixes⟩ := walk_spec h _ i hi ⟨[], ∅⟩ (Nat.lt_succ_self _)
  have hreaches : ∀ j, j ∈ walk.chunkVisitMap ↔ Relation.ReflTransGen (l.Leads chunks) i j := by
    intro j
    have hmarked := hmixes.marked
    rw [Finset.coe_empty] at hmarked
    exact Finset.mem_coe.symm.trans hmarked.revisited.mem_iff
  -- the hash has one share for each chunk that was visited
  have htotal : (mixed walk.hash : Multiset (Nat × UInt64)) =
      walk.chunkVisitMap.val.map fun j => (j, ((chunks[j]?).map Chunk.isolatedHash).getD 0) := by
    have heq := hmixes.collects.total_eq
    rw [Finset.sdiff_empty, add_zero, show (mixed [] : Multiset (Nat × UInt64)) = 0 from rfl, zero_add] at heq
    rw [heq, Finset.sum_eq_multiset_sum]
    conv => rhs; rw [← Multiset.sum_map_singleton (Multiset.map _ _), Multiset.map_map]
    rfl
  have hindices : (walk.hash.filterMap Write.index? : Multiset Nat) = walk.chunkVisitMap.val := by
    rw [← map_fst_mixed, ← Multiset.map_coe, htotal, Multiset.map_map]
    exact Multiset.map_id _
  refine ⟨walk, hsettles, ?_, fun j => ?_, fun j hash hwrite => ?_⟩
  · rw [← Multiset.coe_nodup, hindices]
    exact walk.chunkVisitMap.nodup
  · rw [← hreaches, ← Multiset.mem_coe, hindices]
    rfl
  · have hmixed : (j, hash) ∈ mixed walk.hash := List.mem_filterMap.mpr ⟨_, hwrite, rfl⟩
    rw [← Multiset.mem_coe, htotal, Multiset.mem_map] at hmixed
    obtain ⟨j', hvisited, heq⟩ := hmixed
    obtain ⟨rfl, rfl⟩ := Prod.mk.inj heq
    have hj : j' < chunks.length := by
      rcases (hreaches j').mp hvisited with _ | ⟨-, hleads⟩
      · exact hi
      · exact leads_lt h hleads
    refine ⟨_, List.getElem?_eq_getElem hj, ?_⟩
    rw [List.getElem?_eq_getElem hj]
    rfl

/-! ### Two runs -/

/-- What of a walk does not depend on contents -/
def sketch (st : Walk) : Finset Nat × List (Option Nat) := (st.chunkVisitMap, st.hash.map Write.index?)

def edges (c : Chunk) : List Nat × List Query := (c.crossChunkImports, c.pieceQueries)

theorem sketch_assetWrite (c c' : Chunk) (sourceIndex : Nat) (h : sketch st = sketch st') :
    (l.assetWrite c sourceIndex st).map sketch = (l.assetWrite c' sourceIndex st').map sketch := by
  obtain ⟨hvisited, hindices⟩ := Prod.mk.inj h
  unfold assetWrite
  cases l.additionalFiles[sourceIndex]? with
  | none => rfl
  | some files =>
    cases files with
    | nil => rfl
    | cons file files =>
      cases file with
      | sourceIndex index => exact congrArg some h
      | outputFile id =>
        cases hpath : l.destPaths[id]? with
        | none => simp [hpath]
        | some path => simp [hpath, sketch, hvisited, hindices, Write.index?]

theorem sketch_visitPiece {visit visit' : Nat → Walk → Option Walk}
    (hvisit : ∀ j st st', sketch st = sketch st' → (visit j st).map sketch = (visit' j st').map sketch) (c c' : Chunk)
    (query : Query) (h : sketch st = sketch st') :
    (l.visitPiece visit c st query).map sketch = (l.visitPiece visit' c' st' query).map sketch := by
  unfold visitPiece
  cases query.kind with
  | none | htmlImport => exact congrArg some h
  | asset => exact sketch_assetWrite c c' query.index h
  | chunk => exact hvisit query.index st st' h
  | scb =>
    cases l.entryPointChunkIndex[query.index]? with
    | none => rfl
    | some j => exact hvisit j st st' h

/-- Chunks with the same edges are visited in the same order. -/
theorem sketch_walk {chunks' : List Chunk} (hedges : chunks.map edges = chunks'.map edges) (fuel i : Nat)
    (h : sketch st = sketch st') :
    (l.appendIsolatedHashesForImportedChunks chunks fuel i st).map sketch =
      (l.appendIsolatedHashesForImportedChunks chunks' fuel i st').map sketch := by
  induction fuel generalizing i st st' with
  | zero => rfl
  | succ fuel ih =>
    obtain ⟨hvisited, hindices⟩ := Prod.mk.inj h
    have hedge : (chunks[i]?).map edges = (chunks'[i]?).map edges := by
      rw [← List.getElem?_map, hedges, List.getElem?_map]
    unfold appendIsolatedHashesForImportedChunks
    by_cases hmem : i ∈ st.chunkVisitMap
    · rw [if_pos hmem, if_pos (hvisited ▸ hmem)]
      exact congrArg some h
    rw [if_neg hmem, if_neg (hvisited ▸ hmem)]
    refine Loop.bind_map_eq hedge fun c c' hc => ?_
    obtain ⟨himports, hpieces⟩ := Prod.mk.inj hc
    rw [← himports, ← hpieces]
    refine Loop.bind_map_eq (p := sketch) (q := sketch) ?_ fun s s' hs => ?_
    · exact Loop.foldlM_map_eq sketch sketch c.crossChunkImports (fun j _ s s' hs => ih j hs)
        (Prod.ext (congrArg (insert i) hvisited) hindices)
    refine Loop.bind_map_eq (p := sketch) (q := sketch) ?_ fun s s' hs => ?_
    · exact Loop.foldlM_map_eq sketch sketch c.pieceQueries (fun query _ s s' hs =>
        sketch_visitPiece (fun j st st' hst => ih j hst) c c' query hs) hs
    obtain ⟨hvisited, hindices⟩ := Prod.mk.inj hs
    simp [sketch, hvisited, hindices, Write.index?]

/-! ### The loop over all chunks -/

/-- What of a chunk the loop leaves as it is -/
def content (c : Chunk) : List Nat × List Query × UInt64 := (c.crossChunkImports, c.pieceQueries, c.isolatedHash)

variable {chunks' : List Chunk}

theorem edges_eq_of_content_eq (h : chunks.map content = chunks'.map content) :
    chunks.map edges = chunks'.map edges := by
  have hmap := congrArg (List.map fun x : List Nat × List Query × UInt64 => (x.1, x.2.1)) h
  rwa [List.map_map, List.map_map] at hmap

theorem leads_congr (h : chunks.map edges = chunks'.map edges) : l.Leads chunks = l.Leads chunks' := by
  funext i j
  have hi : (chunks[i]?).map edges = (chunks'[i]?).map edges := by
    rw [← List.getElem?_map, h, List.getElem?_map]
  unfold Leads
  cases hc : chunks[i]? with
  | none =>
    rw [hc] at hi
    rw [Option.map_eq_none_iff.mp hi.symm]
  | some c =>
    rw [hc, Option.map_some] at hi
    obtain ⟨c', hc', hsame⟩ := Option.map_eq_some_iff.mp hi.symm
    obtain ⟨himports, hpieces⟩ := Prod.mk.inj hsame
    simp [hc', himports, hpieces]

theorem InRange.congr (h : l.InRange chunks) (hedges : chunks.map edges = chunks'.map edges) : l.InRange chunks' := by
  have hlength : chunks.length = chunks'.length := by simpa using congrArg List.length hedges
  have hsame : ∀ c' ∈ chunks', ∃ c ∈ chunks, edges c = edges c' := by
    intro c' hc'
    have hmem : edges c' ∈ chunks.map edges := hedges ▸ List.mem_map_of_mem hc'
    exact List.mem_map.mp hmem
  constructor
  · intro c' hc' j hj
    obtain ⟨c, hc, heq⟩ := hsame c' hc'
    rw [← (Prod.mk.inj heq).1] at hj
    exact hlength ▸ h.imports c hc j hj
  · intro c' hc' query hquery
    obtain ⟨c, hc, heq⟩ := hsame c' hc'
    rw [← (Prod.mk.inj heq).2] at hquery
    exact hlength ▸ h.pieces c hc query hquery
  · intro c' hc' query hquery
    obtain ⟨c, hc, heq⟩ := hsame c' hc'
    rw [← (Prod.mk.inj heq).2] at hquery
    exact h.assets c hc query hquery

/-- These writes are those of a walk with nothing visited, over chunks that have got paths at most. -/
def Started (l : Linker) (chunks : List Chunk) (i : Nat) (writes : List Write) : Prop :=
  ∃ chunks' walk, chunks'.map content = chunks.map content ∧
    Settles (fun fuel => l.appendIsolatedHashesForImportedChunks chunks' fuel i ⟨[], ∅⟩) walk ∧ walk.hash = writes

theorem Covers.congr {writes : List Write} (h : l.Covers chunks' i writes)
    (hcontent : chunks'.map content = chunks.map content) : l.Covers chunks i writes where
  once := h.once
  mem_iff := leads_congr (edges_eq_of_content_eq hcontent) ▸ h.mem_iff
  hashes j hash hwrite := by
    obtain ⟨c', hc', rfl⟩ := h.hashes j hash hwrite
    have hj : (chunks[j]?).map content = some (content c') := by
      rw [← List.getElem?_map, ← hcontent, List.getElem?_map, hc', Option.map_some]
    obtain ⟨c, hc, heq⟩ := Option.map_eq_some_iff.mp hj
    exact ⟨c, hc, (Prod.mk.inj (Prod.mk.inj heq).2).2⟩

theorem Started.covers (h : l.InRange chunks) (hi : i < chunks.length) {writes : List Write}
    (hstart : Started l chunks i writes) : l.Covers chunks i writes := by
  obtain ⟨chunks', walk, hcontent, hsettles, rfl⟩ := hstart
  have hlength : chunks'.length = chunks.length := by simpa using congrArg List.length hcontent
  obtain ⟨walk', hsettles', hcovers⟩ :=
    walk_covers (h.congr (edges_eq_of_content_eq hcontent.symm)) (hlength.symm ▸ hi)
  obtain rfl := hsettles.unique hsettles'
  exact hcovers.congr hcontent

/-- What holds before turn `k` -/
structure Named (l : Linker) (chunks : List Chunk) (k : Nat) (st : Naming) : Prop where
  content : st.chunks.map content = chunks.map content
  nothingVisited : st.chunkVisitMap = ∅
  length : st.hashed.length = k
  started : ∀ i writes, st.hashed[i]? = some writes → Started l chunks i writes

variable (digest : List UInt8 → UInt64) (print : Nat → UInt64 → List UInt8)

theorem map_content_modify (i : Nat) (relPath : List UInt8) :
    (chunks.modify i ({· with finalRelPath := relPath})).map content = chunks.map content := by
  apply List.ext_getElem?
  intro j
  rw [List.getElem?_map, List.getElem?_map, List.getElem?_modify]
  split
  · cases chunks[j]? <;> rfl
  · cases chunks[j]? <;> rfl

/-- One turn -/
theorem nameChunk_spec (h : l.InRange chunks) {k : Nat} (hk : k < chunks.length) {st : Naming}
    (hst : Named l chunks k st) :
    ∃ st', Settles (fun fuel => l.nameChunk digest print fuel st k) st' ∧ Named l chunks (k + 1) st' := by
  have hlength : st.chunks.length = chunks.length := by simpa using congrArg List.length hst.content
  obtain ⟨walk, hsettles, -⟩ :=
    walk_covers (h.congr (edges_eq_of_content_eq hst.content.symm)) (hlength.symm ▸ hk)
  rw [← hst.nothingVisited] at hsettles
  have hstarted : ∀ i writes, (st.hashed ++ [walk.hash])[i]? = some writes → Started l chunks i writes := by
    intro i writes hi
    rw [List.getElem?_append] at hi
    split at hi
    · exact hst.started i writes hi
    · rw [List.getElem?_singleton] at hi
      split at hi
      · obtain rfl := Option.some.inj hi
        have hki : i = k := by
          have := hst.length
          omega
        exact ⟨st.chunks, walk, hst.content, by rwa [hki, ← hst.nothingVisited], rfl⟩
      · cases hi
  have hnamed : Named l chunks (k + 1) {st with chunkVisitMap := ∅, hashed := st.hashed ++ [walk.hash]} :=
    ⟨hst.content, rfl, by simp [hst.length], hstarted⟩
  by_cases hpath : st.pathNames.contains (print k (digest (stream walk.hash)))
  · exact ⟨_, hsettles.bind (.of_forall fun fuel => if_pos hpath), hnamed⟩
  · refine ⟨_, hsettles.bind (.of_forall fun fuel => if_neg hpath), ?_, rfl, hnamed.length, hstarted⟩
    exact (map_content_modify k _).trans hst.content

/-- The loop ends. -/
theorem nameChunks_spec (h : l.InRange chunks) :
    ∃ st, Settles (fun fuel => l.nameChunks digest print fuel chunks) st ∧ Named l chunks chunks.length st := by
  refine settles_foldlM_range (Named l chunks) (fun k hk st hst => nameChunk_spec digest print h hk hst) ?_
  exact ⟨rfl, rfl, rfl, fun i writes hi => nomatch hi⟩

end Linker

/-! ### The text that is hashed -/

theorem Write.length_bytes (w : Write) : w.bytes.length < 256 ^ 8 := by
  cases w with
  | assetPath path => exact path.2.trans (by decide)
  | isolatedHash index hash => simp [bytes]

/-- Writes that make the same text have the same bytes, since each is behind its length. -/
theorem bytes_eq_of_stream_eq {writes writes' : List Write} (h : stream writes = stream writes') :
    writes.map Write.bytes = writes'.map Write.bytes := by
  induction writes generalizing writes' with
  | nil =>
    cases writes' with
    | nil => rfl
    | cons w' writes' => simp [stream, leBytes] at h
  | cons w writes ih =>
    cases writes' with
    | nil => simp [stream, leBytes] at h
    | cons w' writes' =>
      have hsplit : leBytes 8 w.bytes.length ++ (w.bytes ++ stream writes) =
          leBytes 8 w'.bytes.length ++ (w'.bytes ++ stream writes') := by
        simpa [stream, List.flatMap_cons, List.append_assoc] using h
      obtain ⟨hlength, hrest⟩ := List.append_inj hsplit (by simp)
      have hsame : w.bytes.length = w'.bytes.length := by
        rw [← ofLeBytes_leBytes w.length_bytes, hlength, ofLeBytes_leBytes w'.length_bytes]
      obtain ⟨hbytes, htail⟩ := List.append_inj hrest hsame
      rw [List.map_cons, List.map_cons, hbytes, ih htail]

theorem Write.eq_hash_of_bytes_eq {i j : Nat} {a b : UInt64}
    (h : (isolatedHash i a).bytes = (isolatedHash j b).bytes) : a = b := by
  have hnat : a.toNat = b.toNat := by
    rw [← ofLeBytes_leBytes (show a.toNat < 256 ^ 8 from a.toNat_lt), show leBytes 8 a.toNat = leBytes 8 b.toNat from h,
      ofLeBytes_leBytes (show b.toNat < 256 ^ 8 from b.toNat_lt)]
  exact UInt64.toNat_inj.mp hnat

namespace Linker
variable {l : Linker} {chunks : List Chunk}

/-- The same chunks, but for what is in one of them. Their paths are not compared. -/
structure DiffersAt (k : Nat) (chunks chunks' : List Chunk) : Prop where
  edges : chunks.map edges = chunks'.map edges
  hash : ∀ c c', chunks[k]? = some c → chunks'[k]? = some c' → c.isolatedHash ≠ c'.isolatedHash

/-- Texts differ if the hash of a chunk does that is in both. -/
theorem stream_ne {writes writes' : List Write} (hindices : writes.map Write.index? = writes'.map Write.index?) {k : Nat}
    (hk : k ∈ writes.filterMap Write.index?)
    (hne : ∀ hash hash', .isolatedHash k hash ∈ writes → .isolatedHash k hash' ∈ writes' → hash ≠ hash') :
    stream writes ≠ stream writes' := by
  intro hstream
  have hbytes := bytes_eq_of_stream_eq hstream
  obtain ⟨w, hw, hindex⟩ := List.mem_filterMap.mp hk
  obtain ⟨n, hn⟩ := List.getElem?_of_mem hw
  have hindex' : (writes'[n]?).map Write.index? = some (some k) := by
    rw [← List.getElem?_map, ← hindices, List.getElem?_map, hn, Option.map_some, hindex]
  obtain ⟨w', hn', hindex'⟩ := Option.map_eq_some_iff.mp hindex'
  have hsame : some w.bytes = some w'.bytes := by
    have := congrArg (·[n]?) hbytes
    simpa [hn, hn'] using this
  cases w with
  | assetPath path => cases hindex
  | isolatedHash i hash =>
    obtain rfl := Option.some.inj hindex
    cases w' with
    | assetPath path => cases hindex'
    | isolatedHash i' hash' =>
      obtain rfl := Option.some.inj hindex'
      exact hne hash hash' hw (List.mem_of_getElem? hn') (Write.eq_hash_of_bytes_eq (Option.some.inj hsame))

/-- Walks of two runs from one chunk differ in their texts if the hash of a chunk does that it leads to. -/
theorem Started.stream_ne {chunks' : List Chunk} {k i : Nat} {writes writes' : List Write}
    (hdiffers : DiffersAt k chunks chunks') (hstart : Started l chunks i writes) (hstart' : Started l chunks' i writes')
    (hcovers : l.Covers chunks i writes) (hcovers' : l.Covers chunks' i writes')
    (hreaches : Relation.ReflTransGen (l.Leads chunks) i k) : stream writes ≠ stream writes' := by
  obtain ⟨chunks₁, walk, hcontent, hsettles, rfl⟩ := hstart
  obtain ⟨chunks₂, walk', hcontent', hsettles', rfl⟩ := hstart'
  have hedges : chunks₁.map Linker.edges = chunks₂.map Linker.edges :=
    (edges_eq_of_content_eq hcontent).trans (hdiffers.edges.trans (edges_eq_of_content_eq hcontent').symm)
  have hsketches := hsettles.map sketch
  simp only [sketch_walk hedges _ i (rfl : sketch ⟨[], ∅⟩ = sketch ⟨[], ∅⟩)] at hsketches
  have hsketch : sketch walk = sketch walk' := hsketches.unique (hsettles'.map sketch)
  refine Linker.stream_ne (Prod.mk.inj hsketch).2 ((hcovers.mem_iff k).mpr hreaches) fun hash hash' hmem hmem' => ?_
  obtain ⟨c, hc, rfl⟩ := hcovers.hashes k hash hmem
  obtain ⟨c', hc', rfl⟩ := hcovers'.hashes k hash' hmem'
  exact hdiffers.hash c c' hc hc'

/-- **Hashes cover what a chunk leads to.** Every walk ends, from a start alone and in the loop, and mixes in the
hash of each chunk that its start leads to, once. So what one chunk is made of shows in the text of every chunk that leads to it. -/
theorem nameChunks_covers (l : Linker) (digest : List UInt8 → UInt64) (print : Nat → UInt64 → List UInt8)
    (chunks : List Chunk) (h : l.InRange chunks) :
    (∀ i < chunks.length, ∃ walk,
      Settles (fun fuel => l.appendIsolatedHashesForImportedChunks chunks fuel i ⟨[], ∅⟩) walk ∧
        l.Covers chunks i walk.hash) ∧
    ∃ st, Settles (fun fuel => l.nameChunks digest print fuel chunks) st ∧ st.hashed.length = chunks.length ∧
      (∀ i writes, st.hashed[i]? = some writes → l.Covers chunks i writes) ∧
      ∀ k chunks' st', DiffersAt k chunks chunks' →
        Settles (fun fuel => l.nameChunks digest print fuel chunks') st' →
        st'.hashed.length = chunks.length ∧
        ∀ i writes writes', st.hashed[i]? = some writes → st'.hashed[i]? = some writes' →
          Relation.ReflTransGen (l.Leads chunks) i k → stream writes ≠ stream writes' := by
  refine ⟨fun i hi => walk_covers h hi, ?_⟩
  obtain ⟨st, hsettles, hst⟩ := nameChunks_spec digest print h
  have hcovers (i writes) (hi : st.hashed[i]? = some writes) : l.Covers chunks i writes := by
    have hlt : i < chunks.length := hst.length ▸ (List.getElem?_eq_some_iff.mp hi).1
    exact (hst.started i writes hi).covers h hlt
  refine ⟨st, hsettles, hst.length, hcovers, fun k chunks' st' hdiffers hsettles' => ?_⟩
  have h' : l.InRange chunks' := h.congr hdiffers.edges
  have hlength : chunks'.length = chunks.length := by simpa using congrArg List.length hdiffers.edges.symm
  obtain ⟨st'', hsettles'', hst'⟩ := nameChunks_spec digest print h'
  obtain rfl := hsettles'.unique hsettles''
  refine ⟨hst'.length.trans hlength, fun i writes writes' hi hi' hreaches => ?_⟩
  have hlt : i < chunks'.length := hst'.length ▸ (List.getElem?_eq_some_iff.mp hi').1
  exact (hst.started i writes hi).stream_ne hdiffers (hst'.started i writes' hi') (hcovers i writes hi)
    ((hst'.started i writes' hi').covers h' hlt) hreaches

/-- Three chunks in a cycle, by an import, a piece for a chunk and a piece for an entry point, and an asset -/
theorem nameChunks_covers_cycle :
    let l : Linker := ⟨[0], [[.outputFile 0]], [[120]], fun _ => [], fun _ _ => ⟨[120], by decide⟩⟩
    let chunks : List Chunk := [⟨[1], .pieces [⟨.asset, 0⟩], 10, []⟩, ⟨[], .pieces [⟨.chunk, 2⟩], 11, []⟩,
      ⟨[], .pieces [⟨.scb, 0⟩], 12, []⟩]
    ∃ walk, Settles (fun fuel => l.appendIsolatedHashesForImportedChunks chunks fuel 1 ⟨[], ∅⟩) walk ∧
      l.Covers chunks 1 walk.hash := by
  intro l chunks
  refine (nameChunks_covers l (fun text => .ofNat text.length) (fun index _ => leBytes 1 (97 + index)) chunks ?_).1 1
    (by decide)
  constructor
  · decide
  · simp [chunks, l, Chunk.pieceQueries, target?]
  · simp [chunks, l, Chunk.pieceQueries]

end Linker

end Funbun.Bundler.ChunkHashes
