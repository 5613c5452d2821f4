import Funbun.Bundler.CrossChunkMatching

/-! Cross-chunk bindings are consistent.

What a chunk uses of another chunk it imports from it, under the alias the other chunk exports it by. The second pass names
what the first one marked as exported (`Named`), the third one writes down what it collected (`Written`). -/
namespace Funbun.Bundler.CrossChunk
open Library Library.Loop

/-! ### Naming the exports -/

/-- A name the renamer may still give. -/
def Fresh (l : Linker) (r : ExportRenamer) (name : Name) : Prop :=
  if l.minifyIdentifiers then ∃ n, r.count ≤ n ∧ name = defaultNumberToMinifiedName n else name ∉ r.used.keys

section Naming
variable (l : Linker)

/-- The renamer gives a name it may give, and does not give it again. -/
theorem nextName_spec (r : ExportRenamer) (ref : Ref) : ∃ r' name, nextName l r ref = some (r', name) ∧
    Fresh l r name ∧ ∀ name', Fresh l r' name' → Fresh l r name' ∧ name' ≠ name := by
  by_cases hminify : l.minifyIdentifiers = true
  · refine ⟨r.nextMinifiedName.1, r.nextMinifiedName.2, by rw [nextName, if_pos hminify], ?_, fun name' h => ?_⟩
    · rw [Fresh, if_pos hminify]
      exact ⟨r.count, le_rfl, rfl⟩
    · rw [Fresh, if_pos hminify] at h ⊢
      obtain ⟨n, hn, rfl⟩ := h
      have hlt : r.count < n := hn
      refine ⟨⟨n, hlt.le, rfl⟩, fun heq => ?_⟩
      exact hlt.ne' (defaultNumberToMinifiedName_injective heq)
  · obtain ⟨r', name, hname, hnew, hused, hsub⟩ := r.nextRenamedName_spec l.display (l.symbols ref).originalName
    refine ⟨r', name, by rw [nextName, if_neg hminify, hname], ?_, fun name' h => ?_⟩
    · rw [Fresh, if_neg hminify]
      exact hnew
    · rw [Fresh, if_neg hminify] at h ⊢
      exact ⟨fun hmem => h (hsub hmem), fun heq => h (heq ▸ hused)⟩

theorem clauseItems_spec (refs : List Ref) : ∀ r : ExportRenamer, ∃ r' items,
    clauseItems l r refs = some (r', items) ∧ items.map (·.ref) = refs ∧ (items.map (·.aliasName)).Nodup ∧
      ∀ item ∈ items, Fresh l r item.aliasName := by
  induction refs with
  | nil => exact fun r => ⟨r, [], rfl, rfl, List.nodup_nil, List.forall_mem_nil _⟩
  | cons ref refs ih =>
    intro r
    obtain ⟨r₁, name, hname, hfresh, hnext⟩ := nextName_spec l r ref
    obtain ⟨r₂, items, hitems, hrefs, hnodup, hall⟩ := ih r₁
    refine ⟨r₂, ⟨ref, name⟩ :: items, by simp [clauseItems, hname, hitems], by simp [hrefs], ?_, ?_⟩
    · rw [List.map_cons, List.nodup_cons]
      refine ⟨fun hmem => ?_, hnodup⟩
      obtain ⟨item, hitem, heq⟩ := List.mem_map.mp hmem
      exact (hnext _ (hall item hitem)).2 heq
    · intro item hitem
      obtain rfl | hitem := List.mem_cons.mp hitem
      · exact hfresh
      · exact (hnext _ (hall item hitem)).1

end Naming

/-- The chunk exports these symbols under different names. -/
structure Named (refs : List Ref) (c : ChunkLinks) : Prop where
  named : ∀ ref ∈ refs, ref ∈ c.exportsToOtherChunks.keys
  clause : ∀ ref name, c.exportsToOtherChunks.get? ref = some name →
    ∃ clause ∈ c.crossChunkSuffixStmts, ⟨ref, name⟩ ∈ clause.items
  distinct : ∀ ref ref' name, c.exportsToOtherChunks.get? ref = some name →
    c.exportsToOtherChunks.get? ref' = some name → ref = ref'

theorem named_of_items {refs : List Ref} (hrefs : refs.Nodup) {items : List ClauseItem}
    (heq : items.map (·.ref) = refs) (hnodup : (items.map (·.aliasName)).Nodup) {c : ChunkLinks}
    (hexports : c.exportsToOtherChunks = items.foldl (fun m item => m.put item.ref item.aliasName) .empty)
    (hsuffix : c.crossChunkSuffixStmts = if items.length = 0 then [] else [⟨items⟩]) : Named refs c := by
  have hentries : c.exportsToOtherChunks.entries = items.map fun item => (item.ref, item.aliasName) := by
    have hfold := ArrayMap.entries_foldl_put (items.map fun item => (item.ref, item.aliasName)) .empty (by
      simpa [ArrayMap.empty, Function.comp_def, heq] using hrefs)
    rw [List.foldl_map] at hfold
    rw [hexports, hfold]
    rfl
  have hget : ∀ ref name, c.exportsToOtherChunks.get? ref = some name ↔ ⟨ref, name⟩ ∈ items := by
    intro ref name
    rw [ArrayMap.get?_eq_some, hentries, List.mem_map]
    constructor
    · intro h
      obtain ⟨item, hitem, hpair⟩ := h
      obtain ⟨rfl, rfl⟩ := Prod.mk.inj hpair
      exact hitem
    · exact fun h => ⟨_, h, rfl⟩
  exact
    { named := by
        intro ref href
        obtain ⟨item, hitem, rfl⟩ := List.mem_map.mp (heq ▸ href)
        exact (ArrayMap.mem_keys _).mpr ⟨item.aliasName, (hget _ _).mpr hitem⟩
      clause := by
        intro ref name h
        have hmem := (hget ref name).mp h
        rw [hsuffix, if_neg (List.length_pos_of_mem hmem).ne']
        exact ⟨_, List.mem_singleton_self _, hmem⟩
      distinct := by
        intro ref ref' name h h'
        have hsame := List.inj_on_of_nodup_map hnodup ((hget ref name).mp h) ((hget ref' name).mp h') rfl
        exact congrArg ClauseItem.ref hsame }

section Loops
variable (l : Linker)

/-- After naming the exports of the first chunks. -/
structure Exporting (metas : List ChunkMeta) (links₀ : List ChunkLinks) (k : Nat) (links : List ChunkLinks) : Prop where
  length : links.length = links₀.length
  chunk : ∀ (C : Nat) (c : ChunkLinks), links[C]? = some c → ∃ c₀, links₀[C]? = some c₀ ∧
    c.importsFromOtherChunks = c₀.importsFromOtherChunks ∧ c.crossChunkImports = c₀.crossChunkImports ∧
      (k ≤ C ∨ isJavaScript l C = false → c = c₀) ∧
        (C < k → isJavaScript l C = true → ∀ m, metas[C]? = some m →
          Named (sortedCrossChunkExportItems l m.exports) c)

theorem nodup_sortedCrossChunkExportItems (exports : ArraySet Ref) :
    (sortedCrossChunkExportItems l exports).Nodup :=
  (List.perm_insertionSort _ _).nodup_iff.mpr exports.nodup

theorem mem_sortedCrossChunkExportItems {exports : ArraySet Ref} {ref : Ref} :
    ref ∈ sortedCrossChunkExportItems l exports ↔ ref ∈ exports.keys := List.mem_insertionSort _

theorem linkExports_spec (hesm : l.outputFormat = .esm) {metas : List ChunkMeta} {links₀ : List ChunkLinks}
    (hmetas : metas.length = links₀.length)
    (hplain : ∀ (C : Nat) (c : ChunkLinks), links₀[C]? = some c →
      c.exportsToOtherChunks = .empty ∧ c.crossChunkSuffixStmts = [])
    {k : Nat} (hk : k < links₀.length) {s : ExportRenamer × List ChunkLinks}
    (h : Exporting l metas links₀ k s.2) :
    ∃ s', linkExports l metas s k = some s' ∧ Exporting l metas links₀ (k + 1) s'.2 := by
  have hm := List.getElem?_eq_getElem (hmetas ▸ hk)
  cases hjs : isJavaScript l k with
  | false =>
    refine ⟨s, by simp only [linkExports, hjs], h.length, fun C c hc => ?_⟩
    obtain ⟨c₀, hc₀, himports, hothers, hkept, hnamed⟩ := h.chunk C c hc
    refine ⟨c₀, hc₀, himports, hothers, fun hor => hkept (hor.imp_left Nat.le_of_succ_le), fun hlt hjs' => ?_⟩
    obtain hlt | rfl := Nat.lt_succ_iff_lt_or_eq.mp hlt
    · exact hnamed hlt hjs'
    · rw [hjs] at hjs'
      cases hjs'
  | true =>
    obtain ⟨r, items, hitems, hrefs, hnodup, -⟩ := clauseItems_spec l
      (sortedCrossChunkExportItems l metas[k].exports) s.1.clearRetainingCapacity
    refine ⟨⟨r, s.2.modify k fun c => {c with
        exportsToOtherChunks := items.foldl (fun m item => m.put item.ref item.aliasName) c.exportsToOtherChunks
        crossChunkSuffixStmts := if items.length = 0 then c.crossChunkSuffixStmts else [⟨items⟩]}⟩, ?_, ?_, ?_⟩
    · simp only [linkExports, hjs, hesm, hm, hitems]
      rfl
    · rw [List.length_modify, h.length]
    · intro C c hc
      rw [List.getElem?_modify] at hc
      obtain ⟨c₁, hc₁, rfl⟩ := Option.map_eq_some_iff.mp hc
      obtain ⟨c₀, hc₀, himports, hothers, hkept, hnamed⟩ := h.chunk C c₁ hc₁
      refine ⟨c₀, hc₀, ?_⟩
      by_cases hC : k = C
      · subst hC
        obtain rfl := hkept (.inl le_rfl)
        obtain ⟨hempty, hsuffix⟩ := hplain k c₁ hc₀
        rw [if_pos rfl]
        refine ⟨himports, hothers, fun hor => ?_, fun _ _ m hm' => ?_⟩
        · obtain hle | hjs' := hor
          · omega
          · rw [hjs] at hjs'
            cases hjs'
        · obtain rfl := Option.some.inj (hm.symm.trans hm')
          exact named_of_items (nodup_sortedCrossChunkExportItems l _) hrefs hnodup (by rw [hempty]) (by rw [hsuffix])
      · rw [if_neg hC]
        exact ⟨himports, hothers, fun hor => hkept (hor.imp_left Nat.le_of_succ_le),
          fun hlt => hnamed (by omega)⟩

end Loops

/-! ### Writing the imports -/

/-- The alias a chunk exports a symbol under. -/
def exportsAt (links : List ChunkLinks) (D : Nat) (ref : Ref) : Option Name :=
  (links[D]?).bind (·.exportsToOtherChunks.get? ref)

section Writing
variable (l : Linker)

theorem mapM_spec {α β : Type} {f : α → Option β} (as : List α) (h : ∀ a ∈ as, ∃ b, f a = some b) :
    ∃ bs, as.mapM f = some bs ∧ ∀ b, b ∈ bs ↔ ∃ a ∈ as, f a = some b := by
  induction as with
  | nil => exact ⟨[], rfl, by simp⟩
  | cons a as ih =>
    obtain ⟨b, hb⟩ := h a List.mem_cons_self
    obtain ⟨bs, hbs, hmem⟩ := ih fun a' ha' => h a' (List.mem_cons_of_mem _ ha')
    refine ⟨b :: bs, by simp [List.mapM_cons, hb, hbs], fun b' => ?_⟩
    simp [List.mem_cons, hmem, hb, eq_comm]

variable {links links₁ : List ChunkLinks}

/-- Every item gets the alias the other chunk exports it under. -/
theorem aliasItems_spec {D : Nat} (hjs : isJavaScript l D = true)
    (hlength : links.length = l.chunks.length) {items : List CrossChunkImportItem}
    (h : ∀ item ∈ items, ∃ name, exportsAt links D item.ref = some name) :
    ∃ aliased, aliasItems l links D items = some aliased ∧ ∀ ref name,
      (∃ item ∈ aliased, item.ref = ref ∧ item.exportAlias = name) ↔
        (∃ item ∈ items, item.ref = ref) ∧ exportsAt links D ref = some name := by
  have hlt : D < links.length := hlength ▸ lt_of_isJavaScript hjs
  have hD := List.getElem?_eq_getElem hlt
  have hat : ∀ ref, exportsAt links D ref = links[D].exportsToOtherChunks.get? ref := by
    intro ref
    rw [exportsAt, hD, Option.bind_some]
  obtain ⟨aliased, haliased, hmem⟩ := mapM_spec (f := fun item : CrossChunkImportItem =>
    (links[D].exportsToOtherChunks.get? item.ref).map fun name => {item with exportAlias := name}) items (by
      intro item hitem
      obtain ⟨name, hname⟩ := h item hitem
      exact ⟨{item with exportAlias := name}, by rw [← hat, hname]; rfl⟩)
  refine ⟨aliased.insertionSort fun a b => ¬ b.exportAlias < a.exportAlias, ?_, fun ref name => ?_⟩
  · simp only [aliasItems, hjs, if_true, hD, Option.bind_eq_bind, Option.bind_some, haliased]
  · simp only [List.mem_insertionSort, hmem, hat]
    constructor
    · intro h
      obtain ⟨_, ⟨item, hitem, hmap⟩, rfl, rfl⟩ := h
      obtain ⟨name, hname, rfl⟩ := Option.map_eq_some_iff.mp hmap
      exact ⟨⟨item, hitem, rfl⟩, hname⟩
    · intro h
      obtain ⟨⟨item, hitem, rfl⟩, hname⟩ := h
      exact ⟨{item with exportAlias := name}, ⟨item, hitem, by rw [hname]; rfl⟩, rfl, rfl⟩

theorem foldl_pushImport (hesm : l.outputFormat = .esm) (list : List CrossChunkImport) : ∀ c : ChunkLinks,
    list.foldl (pushImport l) c = {c with
      crossChunkPrefixStmts := c.crossChunkPrefixStmts ++ (list.zipIdx c.crossChunkImports.length).map
        fun p => ⟨p.1.sortedImportItems.map fun item => ⟨item.ref, item.exportAlias⟩, p.2⟩
      crossChunkImports := c.crossChunkImports ++ list.map fun x => ⟨.stmt, x.chunkIndex⟩} := by
  induction list with
  | nil =>
    intro c
    simp
  | cons x list ih =>
    intro c
    rw [List.foldl_cons, ih]
    simp [pushImport, hesm, List.zipIdx_cons]

/-- A statement imports, from a chunk that items are imported from, each under its alias. -/
def Imports (exported : Nat → Ref → Option Name) (D : Nat) (items : List CrossChunkImportItem) (c : ChunkLinks)
    (stmt : ImportStmt) : Prop :=
  c.crossChunkImports[stmt.importRecordIndex]? = some ⟨.stmt, D⟩ ∧ ∀ ref name, ⟨ref, name⟩ ∈ stmt.items ↔
    (∃ item ∈ items, item.ref = ref) ∧ exported D ref = some name

/-- The chunk's statements import what was collected for it. -/
structure Written (exported : Nat → Ref → Option Name) (c₀ c : ChunkLinks) : Prop where
  stmt : ∀ stmt ∈ c.crossChunkPrefixStmts, ∃ D items, c₀.importsFromOtherChunks.get? D = some items ∧
    Imports exported D items c stmt
  chunk : ∀ D items, c₀.importsFromOtherChunks.get? D = some items →
    ∃ stmt ∈ c.crossChunkPrefixStmts, Imports exported D items c stmt
  others : ∀ x ∈ c.crossChunkImports, x ∈ c₀.crossChunkImports ∨
    ∃ items, c₀.importsFromOtherChunks.get? x.chunkIndex = some items

variable {l}

theorem mem_sortedCrossChunkImports {imports : ArrayMap Nat (List CrossChunkImportItem)} {x : CrossChunkImport} :
    x ∈ sortedCrossChunkImports imports ↔ imports.get? x.chunkIndex = some x.sortedImportItems := by
  rw [sortedCrossChunkImports, List.mem_insertionSort, List.mem_map, ArrayMap.get?_eq_some]
  constructor
  · intro h
    obtain ⟨e, he, rfl⟩ := h
    exact he
  · exact fun h => ⟨_, h, rfl⟩

theorem written (hesm : l.outputFormat = .esm) (hlength : links.length = l.chunks.length)
    {C : Nat} {c : ChunkLinks} (hC : links[C]? = some c) (hjs : isJavaScript l C = true)
    (h : ∀ D items, c.importsFromOtherChunks.get? D = some items → isJavaScript l D = true ∧
      ∀ item ∈ items, ∃ name, exportsAt links D item.ref = some name) :
    ∃ c', writeImports l links C = some (links.set C c') ∧ Written (exportsAt links) c c' ∧
      c'.exportsToOtherChunks = c.exportsToOtherChunks ∧ c'.crossChunkSuffixStmts = c.crossChunkSuffixStmts := by
  have hspec : ∀ D items, c.importsFromOtherChunks.get? D = some items → ∃ aliased,
      aliasItems l links D items = some aliased ∧ ∀ ref name,
        (∃ item ∈ aliased, item.ref = ref ∧ item.exportAlias = name) ↔
          (∃ item ∈ items, item.ref = ref) ∧ exportsAt links D ref = some name :=
    fun D items hitems => aliasItems_spec l (h D items hitems).1 hlength (h D items hitems).2
  obtain ⟨imports, himports⟩ := ArrayMap.traverse_isSome (f := aliasItems l links) fun D items hitems => by
    obtain ⟨aliased, haliased, -⟩ := hspec D items hitems
    exact Option.isSome_iff_exists.mpr ⟨aliased, haliased⟩
  let c' := (sortedCrossChunkImports imports).foldl (pushImport l)
    {c with importsFromOtherChunks := imports, crossChunkPrefixStmts := []}
  have hc' := foldl_pushImport l hesm (sortedCrossChunkImports imports)
    {c with importsFromOtherChunks := imports, crossChunkPrefixStmts := []}
  have hclauses : ∀ D items, c.importsFromOtherChunks.get? D = some items → ∀ aliased,
      aliasItems l links D items = some aliased → ∀ ref name,
        (⟨ref, name⟩ : ClauseItem) ∈ aliased.map (fun item => ⟨item.ref, item.exportAlias⟩) ↔
          (∃ item ∈ items, item.ref = ref) ∧ exportsAt links D ref = some name := by
    intro D items hitems aliased haliased ref name
    obtain ⟨aliased', haliased', hiff⟩ := hspec D items hitems
    obtain rfl := Option.some.inj (haliased.symm.trans haliased')
    rw [← hiff, List.mem_map]
    simp only [ClauseItem.mk.injEq]
  -- the statement and the record it names, for each chunk imported from
  have hrecord : ∀ i x, (sortedCrossChunkImports imports)[i]? = some x →
      c'.crossChunkImports[c.crossChunkImports.length + i]? = some ⟨.stmt, x.chunkIndex⟩ := by
    intro i x hx
    show ((sortedCrossChunkImports imports).foldl (pushImport l) _).crossChunkImports[_]? = _
    rw [hc', List.getElem?_append_right (Nat.le_add_right ..), Nat.add_sub_cancel_left, List.getElem?_map, hx]
    rfl
  have hstmts : c'.crossChunkPrefixStmts = ((sortedCrossChunkImports imports).zipIdx c.crossChunkImports.length).map
      fun p => ⟨p.1.sortedImportItems.map fun item => ⟨item.ref, item.exportAlias⟩, p.2⟩ := by
    show ((sortedCrossChunkImports imports).foldl (pushImport l) _).crossChunkPrefixStmts = _
    rw [hc', List.nil_append]
  refine ⟨c', by simp only [writeImports, hjs, hC, himports]; rfl, ⟨?_, ?_, ?_⟩, ?_, ?_⟩
  · intro stmt hstmt
    rw [hstmts] at hstmt
    obtain ⟨⟨x, i⟩, hx, rfl⟩ := List.mem_map.mp hstmt
    obtain ⟨hle, hx⟩ := List.mem_zipIdx_iff_le_and_getElem?_sub.mp hx
    obtain ⟨items, hitems, haliased⟩ := (ArrayMap.get?_traverse himports).mp
      (mem_sortedCrossChunkImports.mp (List.mem_of_getElem? hx))
    refine ⟨x.chunkIndex, items, hitems, ?_, hclauses _ items hitems _ haliased⟩
    rw [← hrecord _ x hx]
    exact congrArg (c'.crossChunkImports[·]?) (by dsimp only at hle ⊢; omega)
  · intro D items hitems
    obtain ⟨aliased, haliased, -⟩ := hspec D items hitems
    have hmem : ⟨D, aliased⟩ ∈ sortedCrossChunkImports imports :=
      mem_sortedCrossChunkImports.mpr ((ArrayMap.get?_traverse himports).mpr ⟨items, hitems, haliased⟩)
    obtain ⟨i, hi⟩ := List.getElem?_of_mem hmem
    refine ⟨⟨aliased.map fun item => ⟨item.ref, item.exportAlias⟩, c.crossChunkImports.length + i⟩, ?_,
      hrecord i _ hi, hclauses D items hitems aliased haliased⟩
    rw [hstmts]
    refine List.mem_map.mpr ⟨(⟨D, aliased⟩, c.crossChunkImports.length + i), ?_, rfl⟩
    exact List.mem_zipIdx_iff_le_and_getElem?_sub.mpr
      ⟨Nat.le_add_right .., by rw [Nat.add_sub_cancel_left]; exact hi⟩
  · intro x hx
    have hx' : x ∈ c.crossChunkImports ++ (sortedCrossChunkImports imports).map fun x => ⟨.stmt, x.chunkIndex⟩ := by
      have hx₀ : x ∈ ((sortedCrossChunkImports imports).foldl (pushImport l) _).crossChunkImports := hx
      rwa [hc'] at hx₀
    obtain hx' | hx' := List.mem_append.mp hx'
    · exact .inl hx'
    · obtain ⟨y, hy, rfl⟩ := List.mem_map.mp hx'
      obtain ⟨items, hitems, -⟩ := (ArrayMap.get?_traverse himports).mp (mem_sortedCrossChunkImports.mp hy)
      exact .inr ⟨items, hitems⟩
  · show ((sortedCrossChunkImports imports).foldl (pushImport l) _).exportsToOtherChunks = _
    rw [hc']
  · show ((sortedCrossChunkImports imports).foldl (pushImport l) _).crossChunkSuffixStmts = _
    rw [hc']

/-- After writing the imports of the first chunks. -/
structure WrittenUpTo (l : Linker) (links₁ : List ChunkLinks) (k : Nat) (links : List ChunkLinks) : Prop where
  length : links.length = links₁.length
  chunk : ∀ (C : Nat) (c : ChunkLinks), links[C]? = some c → ∃ c₁, links₁[C]? = some c₁ ∧
    c.exportsToOtherChunks = c₁.exportsToOtherChunks ∧ c.crossChunkSuffixStmts = c₁.crossChunkSuffixStmts ∧
      (k ≤ C ∨ isJavaScript l C = false → c = c₁) ∧
        (C < k → isJavaScript l C = true → Written (exportsAt links₁) c₁ c)

theorem WrittenUpTo.exportsAt_eq {k : Nat} (h : WrittenUpTo l links₁ k links) :
    exportsAt links = exportsAt links₁ := by
  funext D ref
  rw [exportsAt, exportsAt]
  cases hD : links[D]? with
  | none =>
    have hge : links₁.length ≤ D := h.length ▸ List.getElem?_eq_none_iff.mp hD
    rw [List.getElem?_eq_none hge]
  | some c =>
    obtain ⟨c₁, hc₁, hexports, -⟩ := h.chunk D c hD
    rw [hc₁, Option.bind_some, Option.bind_some, hexports]

theorem writeImports_spec (hesm : l.outputFormat = .esm) (hlength : links₁.length = l.chunks.length)
    (hsound : ∀ (C : Nat) (c : ChunkLinks), links₁[C]? = some c → ∀ D items,
      c.importsFromOtherChunks.get? D = some items → isJavaScript l D = true ∧
        ∀ item ∈ items, ∃ name, exportsAt links₁ D item.ref = some name)
    {k : Nat} (hk : k < links₁.length) (h : WrittenUpTo l links₁ k links) :
    ∃ links', writeImports l links k = some links' ∧ WrittenUpTo l links₁ (k + 1) links' := by
  have hat := h.exportsAt_eq
  have hc := List.getElem?_eq_getElem (h.length ▸ hk)
  cases hjs : isJavaScript l k with
  | false =>
    refine ⟨links, by simp only [writeImports, hjs], h.length, fun C c hC => ?_⟩
    obtain ⟨c₁, hc₁, hexports, hsuffix, hkept, hwritten⟩ := h.chunk C c hC
    refine ⟨c₁, hc₁, hexports, hsuffix, fun hor => hkept (hor.imp_left Nat.le_of_succ_le), fun hlt hjs' => ?_⟩
    obtain hlt | rfl := Nat.lt_succ_iff_lt_or_eq.mp hlt
    · exact hwritten hlt hjs'
    · rw [hjs] at hjs'
      cases hjs'
  | true =>
    obtain ⟨c₁, hc₁, hexports, hsuffix, hkept, -⟩ := h.chunk k _ hc
    have heq := hkept (.inl le_rfl)
    obtain ⟨c', hwrite, hwritten, hexports', hsuffix'⟩ := written hesm (h.length.trans hlength) hc hjs (by
      rw [heq, hat]
      exact hsound k c₁ hc₁)
    refine ⟨_, hwrite, by rw [List.length_set, h.length], fun C c hC => ?_⟩
    rw [List.getElem?_set] at hC
    by_cases hCk : k = C
    · subst hCk
      rw [if_pos rfl, if_pos (h.length ▸ hk)] at hC
      obtain rfl := Option.some.inj hC
      refine ⟨c₁, hc₁, hexports'.trans hexports, hsuffix'.trans hsuffix, fun hor => ?_, fun _ _ => ?_⟩
      · obtain hle | hjs' := hor
        · omega
        · rw [hjs] at hjs'
          cases hjs'
      · rw [← hat, ← heq]
        exact hwritten
    · rw [if_neg hCk] at hC
      obtain ⟨c₂, hc₂, hexports₂, hsuffix₂, hkept₂, hwritten₂⟩ := h.chunk C c hC
      exact ⟨c₂, hc₂, hexports₂, hsuffix₂, fun hor => hkept₂ (hor.imp_left Nat.le_of_succ_le),
        fun hlt => hwritten₂ (by omega)⟩

end Writing

/-! ### Cross-chunk bindings are consistent -/

/-- The statement imports from the chunk `D`. -/
def ImportsFrom (links : List ChunkLinks) (C D : Nat) (stmt : ImportStmt) : Prop :=
  ∃ c : ChunkLinks, links[C]? = some c ∧ stmt ∈ c.crossChunkPrefixStmts ∧
    c.crossChunkImports[stmt.importRecordIndex]? = some ⟨.stmt, D⟩

/-- The chunk `D` gives a symbol this alias, and exports it. -/
def Exports (links : List ChunkLinks) (D : Nat) (ref : Ref) (name : Name) : Prop :=
  ∃ d : ChunkLinks, links[D]? = some d ∧ d.exportsToOtherChunks.get? ref = some name ∧
    ∃ clause ∈ d.crossChunkSuffixStmts, ⟨ref, name⟩ ∈ clause.items

structure Consistent (l : Linker) (links : List ChunkLinks) : Prop where
  used : ∀ C D ref, Uses l C ref → DeclaredIn l ref D → D ≠ C →
    ∃ name stmt, Exports links D ref name ∧ ImportsFrom links C D stmt ∧ ⟨ref, name⟩ ∈ stmt.items
  distinct : ∀ D ref ref' name, Exports links D ref name → Exports links D ref' name → ref = ref'
  itself : ∀ (C : Nat) (c : ChunkLinks), links[C]? = some c → ∀ x ∈ c.crossChunkImports, x.chunkIndex ≠ C
  exported : ∀ C D stmt ref name, ImportsFrom links C D stmt → ⟨ref, name⟩ ∈ stmt.items →
    Exports links D ref name
  entry : ∀ (C D : Nat) (chunk other : Chunk), l.chunks[C]? = some chunk → chunk.content = .javascript →
    chunk.entryPoint.isEntryPoint = true → l.chunks[D]? = some other → other.content = .javascript → D ≠ C →
      other.entryBits chunk.entryPoint.entryPointId = true → ∃ stmt, ImportsFrom links C D stmt

section Main
variable {l : Linker}

variable {metas : List ChunkMeta} {links₀ links₁ : List ChunkLinks}

theorem Exporting.exportsAt
    (h : Exporting l metas links₀ l.chunks.length links₁) (hlength : links₀.length = l.chunks.length) {D : Nat}
    (hjs : isJavaScript l D = true) {ref : Ref} (hexported : Exported metas D ref) :
    ∃ name, exportsAt links₁ D ref = some name := by
  obtain ⟨m, hm, href⟩ := hexported
  have hlt := lt_of_isJavaScript hjs
  have hc := List.getElem?_eq_getElem (h.length.trans hlength ▸ hlt)
  obtain ⟨c₀, -, -, -, -, hnamed⟩ := h.chunk D _ hc
  obtain ⟨name, hname⟩ := (ArrayMap.mem_keys _).mp
    ((hnamed hlt hjs m hm).named ref ((mem_sortedCrossChunkExportItems l).mpr href))
  exact ⟨name, by rw [CrossChunk.exportsAt, hc, Option.bind_some, hname]⟩

/-- What a chunk gives an alias it exports, and each alias to one symbol. -/
theorem Exporting.exports (h : Exporting l metas links₀ l.chunks.length links₁) (hmetas : metas.length = l.chunks.length)
    (hplain : ∀ (C : Nat) (c : ChunkLinks), links₀[C]? = some c → c.exportsToOtherChunks = .empty)
    {D : Nat} {d : ChunkLinks} (hd : links₁[D]? = some d) {ref : Ref} {name : Name}
    (hname : d.exportsToOtherChunks.get? ref = some name) :
    (∃ clause ∈ d.crossChunkSuffixStmts, ⟨ref, name⟩ ∈ clause.items) ∧
      ∀ ref', d.exportsToOtherChunks.get? ref' = some name → ref = ref' := by
  obtain ⟨d₀, hd₀, -, -, hkept, hnamed⟩ := h.chunk D d hd
  cases hjs : isJavaScript l D with
  | false =>
    obtain rfl := hkept (.inr hjs)
    rw [hplain D d hd₀] at hname
    cases hname
  | true =>
    have hlt := lt_of_isJavaScript hjs
    have hnamed := hnamed hlt hjs _ (List.getElem?_eq_getElem (hmetas ▸ hlt))
    exact ⟨hnamed.clause ref name hname, fun ref' hname' => hnamed.distinct ref ref' name hname hname'⟩

/-- What the walks and the three passes leave. -/
structure Passes (l : Linker) (s : Walk) (metas : List ChunkMeta) (linking : Linking)
    (links₁ links : List ChunkLinks) : Prop where
  uses : ∀ C D ref, Uses l C ref → DeclaredIn l ref D → D ≠ C → ∃ m, metas[C]? = some m ∧ ref ∈ m.imports.keys
  declared : ∀ ref D, s.chunkIndex ref = some D ↔ DeclaredIn l ref D
  bound : linking.Bound l metas
  matched : ∀ C < l.chunks.length, Matched l metas s.chunkIndex C linking
  named : Exporting l linking.metas linking.links l.chunks.length links₁
  written : WrittenUpTo l links₁ l.chunks.length links

namespace Passes
variable {s : Walk} {metas : List ChunkMeta} {linking : Linking} {links₁ links : List ChunkLinks}

variable {D C : Nat} {ref : Ref} {name : Name}

theorem named_exports (h : Passes l s metas linking links₁ links) {d : ChunkLinks}
    (hd : links₁[D]? = some d) (hname : d.exportsToOtherChunks.get? ref = some name) :
    (∃ clause ∈ d.crossChunkSuffixStmts, ⟨ref, name⟩ ∈ clause.items) ∧
      ∀ ref', d.exportsToOtherChunks.get? ref' = some name → ref = ref' :=
  h.named.exports h.bound.metas_length (fun C c hc => (h.bound.others C c hc).2.1) hd hname

theorem exportsAt_iff (h : Passes l s metas linking links₁ links) :
    exportsAt links₁ D ref = some name ↔ Exports links D ref name := by
  constructor
  · intro hname
    obtain ⟨d₁, hd₁, hname⟩ := Option.bind_eq_some_iff.mp hname
    have hlt : D < links.length := h.written.length ▸ (List.getElem?_eq_some_iff.mp hd₁).1
    have hd := List.getElem?_eq_getElem hlt
    obtain ⟨d₂, hd₂, hto, hsuffix, -⟩ := h.written.chunk D _ hd
    obtain rfl := Option.some.inj (hd₁.symm.trans hd₂)
    exact ⟨_, hd, hto ▸ hname, hsuffix ▸ (h.named_exports hd₁ hname).1⟩
  · intro hexports
    obtain ⟨d, hd, hname, -⟩ := hexports
    rw [← h.written.exportsAt_eq, exportsAt, hd, Option.bind_some, hname]

/-- The statements of a chunk import what was collected for it. -/
theorem chunk (h : Passes l s metas linking links₁ links) (hjs : isJavaScript l C = true) :
    ∃ c c₁, links[C]? = some c ∧ Written (exportsAt links₁) c₁ c ∧
      ∀ D, c₁.importsFromOtherChunks.get? D = linking.importsAt C D := by
  have hlt := lt_of_isJavaScript hjs
  have hc := List.getElem?_eq_getElem (h.written.length.trans (h.named.length.trans h.bound.links) ▸ hlt)
  obtain ⟨c₁, hc₁, -, -, -, hw⟩ := h.written.chunk C _ hc
  obtain ⟨c₀, hc₀, himports, -⟩ := h.named.chunk C c₁ hc₁
  exact ⟨_, c₁, hc, hw hlt hjs, fun D => by rw [Linking.importsAt, hc₀, Option.bind_some, himports]⟩

theorem stmt (h : Passes l s metas linking links₁ links) {items : List CrossChunkImportItem}
    (hjs : isJavaScript l C = true) (hitems : linking.importsAt C D = some items) :
    ∃ stmt, ImportsFrom links C D stmt ∧ ∀ ref name, ⟨ref, name⟩ ∈ stmt.items ↔
      (∃ item ∈ items, item.ref = ref) ∧ exportsAt links₁ D ref = some name := by
  obtain ⟨c, c₁, hc, hw, hat⟩ := h.chunk hjs
  obtain ⟨stmt, hmem, hrecord, hiff⟩ := hw.chunk D items ((hat D).trans hitems)
  exact ⟨stmt, ⟨c, hc, hmem, hrecord⟩, hiff⟩

theorem used (h : Passes l s metas linking links₁ links) (huse : Uses l C ref) (hD : DeclaredIn l ref D) (hne : D ≠ C) :
    ∃ name stmt, Exports links D ref name ∧ ImportsFrom links C D stmt ∧ ⟨ref, name⟩ ∈ stmt.items := by
  obtain ⟨m, hm, href⟩ := h.uses C D ref huse hD hne
  obtain ⟨chunk, hchunk, hjs⟩ := huse.javascript
  have hCjs : isJavaScript l C = true := by simp [isJavaScript, hchunk, hjs]
  have hmatched := h.matched C (lt_of_isJavaScript hCjs) chunk m hchunk hjs hm
  obtain ⟨items, hitems, item, hitem, rfl⟩ := hmatched.1 ref href D ((h.declared ref D).mpr hD) hne
  obtain ⟨-, hDjs, hexported⟩ := h.bound.sound C D items hitems
  obtain ⟨name, hname⟩ := h.named.exportsAt h.bound.links hDjs (hexported item hitem)
  obtain ⟨stmt, hfrom, hiff⟩ := h.stmt hCjs hitems
  exact ⟨name, stmt, h.exportsAt_iff.mp hname, hfrom, (hiff _ name).mpr ⟨⟨item, hitem, rfl⟩, hname⟩⟩

theorem distinct (h : Passes l s metas linking links₁ links) {ref ref' : Ref}
    (hexports : Exports links D ref name) (hexports' : Exports links D ref' name) : ref = ref' := by
  obtain ⟨d, hd, hname⟩ := Option.bind_eq_some_iff.mp (h.exportsAt_iff.mpr hexports)
  obtain ⟨d', hd', hname'⟩ := Option.bind_eq_some_iff.mp (h.exportsAt_iff.mpr hexports')
  obtain rfl := Option.some.inj (hd.symm.trans hd')
  exact (h.named_exports hd hname).2 ref' hname'

theorem itself (h : Passes l s metas linking links₁ links) {c : ChunkLinks} (hc : links[C]? = some c)
    {x : ChunkImport} (hx : x ∈ c.crossChunkImports) : x.chunkIndex ≠ C := by
  obtain ⟨c₁, hc₁, -, -, hkept, hw⟩ := h.written.chunk C c hc
  obtain ⟨c₀, hc₀, himports, hothers, -⟩ := h.named.chunk C c₁ hc₁
  obtain ⟨hold, -⟩ := h.bound.others C c₀ hc₀
  cases hjs : isJavaScript l C with
  | false =>
    obtain rfl := hkept (.inr hjs)
    exact hold x (hothers ▸ hx)
  | true =>
    obtain hx | ⟨items, hitems⟩ := (hw (lt_of_isJavaScript hjs) hjs).others x hx
    · exact hold x (hothers ▸ hx)
    · have hat : linking.importsAt C x.chunkIndex = some items := by
        rw [Linking.importsAt, hc₀, Option.bind_some, ← himports, hitems]
      exact (h.bound.sound C x.chunkIndex items hat).1

theorem exported (h : Passes l s metas linking links₁ links) {stmt : ImportStmt}
    (hfrom : ImportsFrom links C D stmt) (hitem : ⟨ref, name⟩ ∈ stmt.items) : Exports links D ref name := by
  obtain ⟨c, hc, hmem, hrecord⟩ := hfrom
  obtain ⟨c₁, hc₁, -, -, hkept, hw⟩ := h.written.chunk C c hc
  cases hjs : isJavaScript l C with
  | false =>
    -- only JavaScript chunks get statements
    obtain ⟨c₀, hc₀, -, -, hkept₀, -⟩ := h.named.chunk C c₁ hc₁
    obtain rfl := hkept (.inr hjs)
    obtain rfl := hkept₀ (.inr hjs)
    rw [(h.bound.others C c hc₀).2.2.1] at hmem
    cases hmem
  | true =>
    obtain ⟨D', items, -, hrecord', hiff⟩ := (hw (lt_of_isJavaScript hjs) hjs).stmt stmt hmem
    obtain ⟨-, rfl⟩ := ChunkImport.mk.inj (Option.some.inj (hrecord.symm.trans hrecord'))
    exact h.exportsAt_iff.mp ((hiff ref name).mp hitem).2

theorem entry (h : Passes l s metas linking links₁ links) {chunk other : Chunk}
    (hchunk : l.chunks[C]? = some chunk) (hjs : chunk.content = .javascript)
    (hentry : chunk.entryPoint.isEntryPoint = true) (hother : l.chunks[D]? = some other)
    (hotherjs : other.content = .javascript) (hne : D ≠ C)
    (hbit : other.entryBits chunk.entryPoint.entryPointId = true) : ∃ stmt, ImportsFrom links C D stmt := by
  have hlt := (List.getElem?_eq_some_iff.mp hchunk).1
  obtain ⟨m, m₀, -, hm₀, -⟩ := h.bound.chunkMeta hlt
  have hsome := (h.matched C hlt chunk m₀ hchunk hjs hm₀).2 hentry D other hother hotherjs hne hbit
  obtain ⟨items, hitems⟩ := Option.ne_none_iff_exists'.mp hsome
  obtain ⟨stmt, hfrom, -⟩ := h.stmt (by simp [isJavaScript, hchunk, hjs]) hitems
  exact ⟨stmt, hfrom⟩

theorem consistent (h : Passes l s metas linking links₁ links) : Consistent l links where
  used _ _ _ huse hD hne := h.used huse hD hne
  distinct _ _ _ _ hexports hexports' := h.distinct hexports hexports'
  itself _ _ hc _ hx := h.itself hc hx
  exported _ _ _ _ _ hfrom hitem := h.exported hfrom hitem
  entry _ _ _ _ hchunk hjs hentry hother hotherjs hne hbit :=
    h.entry hchunk hjs hentry hother hotherjs hne hbit

end Passes

/-- Before any chunk is bound to another one. -/
theorem bound_unlinked {s₀ s : Walk} (hwalked : Walked l 0 s₀ s metas l.chunks) :
    Linking.Bound l metas ⟨l.chunks.map fun _ => ChunkLinks.none, metas⟩ where
  links := List.length_map _
  metas_length := hwalked.length
  metas_eq C m hm := ⟨m, hm, rfl, rfl⟩
  sound C D items h := by
    obtain ⟨c, hc, hitems⟩ := Option.bind_eq_some_iff.mp h
    obtain ⟨-, -, rfl⟩ := List.mem_map.mp (List.mem_of_getElem? hc)
    cases hitems
  others C c hc := by
    obtain ⟨-, -, rfl⟩ := List.mem_map.mp (List.mem_of_getElem? hc)
    exact ⟨List.forall_mem_nil _, rfl, rfl, rfl⟩

/-- **Cross-chunk bindings are consistent.** -/
theorem computeCrossChunkDependencies_consistent (hsplit : l.codeSplitting = true) (hesm : l.outputFormat = .esm) :
    ∃ linked, computeCrossChunkDependencies l = some linked ∧ Consistent l linked.links := by
  let s₀ : Walk := ⟨l.importRecords, fun _ => none, ⟨.empty, .empty, .empty⟩⟩
  have hwalked := walked l l.chunks 0 s₀
  let s := (walkChunks l 0 s₀ l.chunks).1
  let metas := (walkChunks l 0 s₀ l.chunks).2
  have hdeclared : ∀ ref D, s.chunkIndex ref = some D ↔ DeclaredIn l ref D :=
    fun ref D => hwalked.chunkIndex_iff hsplit fun _ => rfl
  let linking := (List.range l.chunks.length).foldl (linkImports l s.chunkIndex)
    ⟨l.chunks.map fun _ => ChunkLinks.none, metas⟩
  have hturns := Turn.foldl Linking.Extends.refl Linking.Extends.trans (List.range l.chunks.length)
    (fun C _ => Matched.mono) fun C hC => turn_linkImports
      (fun ref D hD => (hdeclared ref D).mp hD |>.javascript)
      (fun C m hm => Nat.zero_add C ▸ hwalked.dynamic C m hm) (List.mem_range.mp hC)
  have hbound : linking.Bound l metas := hturns.keeps _ (bound_unlinked hwalked)
  have hplain : ∀ (C : Nat) (c : ChunkLinks), linking.links[C]? = some c →
      c.exportsToOtherChunks = .empty ∧ c.crossChunkSuffixStmts = [] :=
    fun C c hc => ⟨(hbound.others C c hc).2.1, (hbound.others C c hc).2.2.2⟩
  obtain ⟨⟨r, links₁⟩, hnaming, hnamed⟩ := foldlM_range (n := l.chunks.length)
    (fun k s => Exporting l linking.metas linking.links k s.2)
    (fun k hk s hs => linkExports_spec l hesm (hbound.metas_length.trans hbound.links.symm) hplain
      (hbound.links ▸ hk) hs)
    (s := (ExportRenamer.init, linking.links))
    ⟨rfl, fun C c hc => ⟨c, hc, rfl, rfl, fun _ => rfl, fun hlt => by omega⟩⟩
  have hlength₁ : links₁.length = l.chunks.length := hnamed.length.trans hbound.links
  obtain ⟨links, hwriting, hwritten⟩ := foldlM_range (n := l.chunks.length) (WrittenUpTo l links₁)
    (fun k hk links hlinks => writeImports_spec hesm hlength₁ (by
      intro C c hc D items hitems
      obtain ⟨c₀, hc₀, himports, -⟩ := hnamed.chunk C c hc
      obtain ⟨-, hjs, hexported⟩ := hbound.sound C D items (by
        rw [Linking.importsAt, hc₀, Option.bind_some, ← himports, hitems])
      exact ⟨hjs, fun item hitem => hnamed.exportsAt hbound.links hjs (hexported item hitem)⟩)
      (hlength₁ ▸ hk) hlinks)
    (s := links₁) ⟨rfl, fun C c hc => ⟨c, hc, rfl, rfl, fun _ => rfl, fun hlt => by omega⟩⟩
  have hpasses : Passes l s metas linking links₁ links :=
    { uses := fun C D ref huse hD hne => hwalked.uses hsplit huse hD hne
      declared := hdeclared
      bound := hbound
      matched := fun C hC => hturns.reaches _ (bound_unlinked hwalked) C (List.mem_range.mpr hC)
      named := hnamed
      written := hwritten }
  refine ⟨⟨links, s.importRecords⟩, ?_, hpasses.consistent⟩
  rw [computeCrossChunkDependencies]
  simp only [hsplit, Bool.not_true, Bool.false_eq_true, if_false]
  show ((List.range l.chunks.length).foldlM (linkExports l linking.metas) (ExportRenamer.init, linking.links)).bind
    _ = _
  rw [hnaming]
  show ((List.range l.chunks.length).foldlM (writeImports l) links₁).bind _ = _
  rw [hwriting]
  rfl

end Main
/-! ### A split bundle -/

def symbolX : Symbol := ⟨[120], false, .none, none⟩

/-- The entry point, file 0, uses an `x` of each of the files 1 and 2, which are in a
chunk of their own. -/
def splitLinker : Linker where
  codeSplitting := true
  outputFormat := .esm
  minifyIdentifiers := false
  symbols _ := symbolX
  parts
    | 0 => [⟨[], [], [⟨1, 0⟩, ⟨2, 0⟩]⟩]
    | 1 => [⟨[], [⟨⟨1, 0⟩, true⟩], []⟩]
    | 2 => [⟨[], [⟨⟨2, 0⟩, true⟩], []⟩]
    | _ => []
  partsLive _ _ := true
  importRecords _ := []
  importsToBind _ _ := none
  flags _ := ⟨.none, false⟩
  wrapperRefs file := ⟨file, 1⟩
  exportsRefs file := ⟨file, 2⟩
  isEntryPoint file := file == 0
  entryPointChunkIndices _ := 0
  sortedAndFilteredExportAliases _ := []
  resolvedExports _ _ := none
  stableSourceIndices file := file
  chunks := [⟨.javascript, [0], (· == 0), ⟨0, 0, true⟩, []⟩, ⟨.javascript, [1, 2], (· == 0), ⟨1, 0, false⟩, []⟩]
  display name := name
  declared_own
    | 0 => by simp
    | 1 => by simp
    | 2 => by simp
    | _ + 3 => by simp
  wrapper_own _ h := by cases h
  file_chunk := by
    intro _ i j c d hc hd _ _ file hfile hfile'
    obtain _ | _ | i := i
    · obtain _ | _ | j := j
      · rfl
      · cases hc
        cases hd
        simp_all
      · cases hd
    · obtain _ | _ | j := j
      · cases hc
        cases hd
        simp_all
      · rfl
      · cases hd
    · cases hc

theorem splitLinker_consistent :
    ∃ linked, computeCrossChunkDependencies splitLinker = some linked ∧ Consistent splitLinker linked.links :=
  computeCrossChunkDependencies_consistent rfl rfl

end Funbun.Bundler.CrossChunk
