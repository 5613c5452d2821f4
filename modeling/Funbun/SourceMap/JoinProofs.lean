import Funbun.SourceMap.Join

/-! The joined text says what the map should say.

`parse_joined`: it is read as the mappings of the pieces in order, each in the place where its piece was put. -/
namespace Funbun.SourceMap
open Library SourceMapState

/-! ### Sources -/

/-- The index of a source is its place among the keys. -/
structure Numbered (sourceIds : ArrayMap Nat Int) (next : Int) : Prop where
  next : next = sourceIds.keys.length
  index : ∀ k ∈ sourceIds.keys, sourceIds.get? k = some ↑(sourceIds.keys.idxOf k)

variable {sourceIds : ArrayMap Nat Int} {k : Nat} {start : LineColumnOffset} {d : Segment} {results : List PieceResult}

theorem keys_put (hk : k ∉ sourceIds.keys) (v : Int) :
    (sourceIds.put k v).keys = sourceIds.keys ++ [k] := by
  show (ArrayMap.updateEntries k _ sourceIds.entries).map Prod.fst = _
  rw [ArrayMap.updateEntries_of_not_mem _ hk, List.map_append]
  rfl

theorem Numbered.put {next : Int} (h : Numbered sourceIds next)
    (hk : k ∉ sourceIds.keys) : Numbered (sourceIds.put k next) (next + 1) := by
  refine ⟨?_, fun k' hk' => ?_⟩
  · rw [keys_put hk, h.next]
    simp
  · rw [keys_put hk] at hk' ⊢
    show (sourceIds.update k fun _ => next).get? k' = _
    rw [ArrayMap.get?_update]
    split
    · rename_i heq
      subst heq
      rw [List.idxOf_append_of_notMem hk, h.next]
      simp
    · rename_i hne
      have hmem : k' ∈ sourceIds.keys := by
        rcases List.mem_append.1 hk' with hk' | hk'
        · exact hk'
        · exact absurd (List.mem_singleton.1 hk') hne
      rw [List.idxOf_append_of_mem hmem]
      exact h.index k' hmem

theorem keys_numberSource (s : ArrayMap Nat Int × Int) (index : Nat) :
    (index ∈ s.1.keys ∧ numberSource s index = s) ∨
      (index ∉ s.1.keys ∧ numberSource s index = (s.1.put index s.2, i32 (s.2 + 1))) := by
  unfold numberSource
  by_cases hmem : index ∈ s.1.keys
  · exact .inl ⟨hmem, if_pos ((ArrayMap.contains_iff _).2 hmem)⟩
  · exact .inr ⟨hmem, if_neg fun h => hmem ((ArrayMap.contains_iff _).1 h)⟩

/-- No source is lost. -/
theorem keys_foldl (sourceIndices : List Nat) (s : ArrayMap Nat Int × Int) :
    s.1.keys.length ≤ (sourceIndices.foldl numberSource s).1.keys.length ∧
      ∀ k, k ∈ s.1.keys ∨ k ∈ sourceIndices → k ∈ (sourceIndices.foldl numberSource s).1.keys := by
  induction sourceIndices generalizing s with
  | nil => exact ⟨le_rfl, fun k hk => hk.resolve_right (List.not_mem_nil)⟩
  | cons index sourceIndices ih =>
    obtain ⟨hlength, hkeys⟩ := ih (numberSource s index)
    show _ ≤ (sourceIndices.foldl numberSource (numberSource s index)).1.keys.length ∧ _
    rcases keys_numberSource s index with ⟨hmem, heq⟩ | ⟨hmem, heq⟩
    · rw [heq] at hlength hkeys
      refine ⟨by rw [heq]; exact hlength, fun k hk => ?_⟩
      rw [List.foldl_cons, heq]
      apply hkeys
      rcases hk with hk | hk
      · exact .inl hk
      · rcases List.mem_cons.1 hk with rfl | hk
        · exact .inl hmem
        · exact .inr hk
    · have hput : (numberSource s index).1.keys = s.1.keys ++ [index] := by
        rw [heq]
        exact keys_put hmem s.2
      rw [hput] at hlength hkeys
      rw [List.length_append] at hlength
      refine ⟨by omega, fun k hk => hkeys k ?_⟩
      rcases hk with hk | hk
      · exact .inl (List.mem_append_left _ hk)
      · rcases List.mem_cons.1 hk with rfl | hk
        · exact .inl (List.mem_append_right _ List.mem_cons_self)
        · exact .inr hk

theorem numbered_foldl {sourceIndices : List Nat} {s : ArrayMap Nat Int × Int} (h : Numbered s.1 s.2)
    (hlength : (sourceIndices.foldl numberSource s).1.keys.length < 2147483648) :
    Numbered (sourceIndices.foldl numberSource s).1 (sourceIndices.foldl numberSource s).2 := by
  induction sourceIndices generalizing s with
  | nil => exact h
  | cons index sourceIndices ih =>
    refine ih ?_ hlength
    have hle : (numberSource s index).1.keys.length < 2147483648 :=
      lt_of_le_of_lt (keys_foldl sourceIndices (numberSource s index)).1 hlength
    rcases keys_numberSource s index with ⟨hmem, heq⟩ | ⟨hmem, heq⟩
    · rw [heq]
      exact h
    · have hnext := (h.put hmem).next
      rw [heq] at hle ⊢
      rw [i32_of_range (by unfold Int32Range; simp only at hle; omega)]
      exact h.put hmem

theorem sourceIdMap_numbers (sourceIndices : List Nat) (hlength : (sourceIdMap sourceIndices).keys.length < 2147483648) :
    ∀ k ∈ sourceIndices, k ∈ (sourceIdMap sourceIndices).keys ∧
      (sourceIdMap sourceIndices).get? k = some ↑((sourceIdMap sourceIndices).keys.idxOf k) := by
  cases sourceIndices with
  | nil => simp
  | cons index sourceIndices =>
    intro k hk
    have hinit : Numbered (ArrayMap.empty.put index 0) 1 := by
      have hempty : Numbered (ArrayMap.empty : ArrayMap Nat Int) 0 := ⟨rfl, by simp [ArrayMap.empty, ArrayMap.keys]⟩
      exact hempty.put (k := index) (by simp [ArrayMap.empty, ArrayMap.keys])
    have hindex : index ∈ ((ArrayMap.empty.put index 0 : ArrayMap Nat Int)).keys :=
      (ArrayMap.mem_keys_put _ _ _ _).2 (.inl rfl)
    have hmem : k ∈ (sourceIdMap (index :: sourceIndices)).keys := by
      apply (keys_foldl sourceIndices (ArrayMap.empty.put index 0, 1)).2 k
      rcases List.mem_cons.1 hk with rfl | hk
      · exact .inl hindex
      · exact .inr hk
    exact ⟨hmem, (numbered_foldl hinit hlength).index k hmem⟩

/-! ### A piece in its place -/

/-- A text with a mapping starts with its line breaks and the first segment. -/
theorem split_first : ∀ {s : SourceMapState} {tokens : List Token}, s.positions tokens ≠ [] →
    ∃ k d rest, tokens = newlines k ++ .segment d :: rest
  | _, [], h => absurd rfl h
  | s, .newline :: tokens, h => by
    obtain ⟨k, d, rest, rfl⟩ := split_first (s := s.newline) h
    exact ⟨k + 1, d, rest, rfl⟩
  | _, .segment d :: tokens, _ => ⟨0, d, tokens, rfl⟩

/-- The first mapping of a piece, in the piece -/
def first (k : Nat) (d : Segment) : SourceMapState := (zero.run (newlines k)).move d

theorem first_eq (k : Nat) (d : Segment) :
    first k d = ⟨k, d.generatedColumn, d.sourceIndex, d.originalLine, d.originalColumn⟩ := by
  unfold first
  rw [run_newlines]
  simp [move, zero]

/-- The tokens of a piece behind a text that leads to `last`: the line breaks, the first mapping written anew,
and the rest as it is. -/
def rebased (last : SourceMapState) (n k : Nat) (start : LineColumnOffset) (source : Int) (d : Segment)
    (rest : List Token) : List Token :=
  newlines (n + k) ++ .segment (((first k d).place start source).sub (last.run (newlines (n + k)))) :: rest

theorem first_mem (k : Nat) (d : Segment) (rest : List Token) :
    first k d ∈ zero.positions (newlines k ++ .segment d :: rest) := by
  rw [positions_append, positions_newlines]
  exact List.mem_cons_self

theorem rebased_spec {last : SourceMapState} {n k : Nat} (source : Int) (d : Segment)
    (rest : List Token) (hstart : start.lines = last.generatedLine + n) :
    last.positions (rebased last n k start source d rest) =
        (zero.positions (newlines k ++ .segment d :: rest)).map (place start source) ∧
      last.run (rebased last n k start source d rest) =
        (zero.run (newlines k ++ .segment d :: rest)).place start source := by
  have hline : ((first k d).place start source).generatedLine = (last.run (newlines (n + k))).generatedLine := by
    rw [place_generatedLine, run_newlines, first_eq, hstart]
    show _ = last.generatedLine + ((n + k : Nat) : Int)
    simp only
    omega
  have hfirst := move_sub hline
  have hnonneg : 0 ≤ (first k d).generatedLine := by
    rw [first_eq]
    exact Int.natCast_nonneg k
  have hrest := positions_place start source rest (first k d) hnonneg
  constructor
  · rw [rebased, positions_append, positions_append, positions_newlines, positions_newlines]
    show (last.run (newlines (n + k))).move _ :: ((last.run (newlines (n + k))).move _).positions rest = _
    rw [hfirst, hrest.1]
    rfl
  · rw [rebased, run_append, run_append]
    show ((last.run (newlines (n + k))).move _).run rest = _
    rw [hfirst, hrest.2]
    rfl

/-! ### Its text -/

theorem render_newlines (after : Bool) (n : Nat) : render after (newlines n) = List.replicate n semicolon := by
  induction n generalizing after with
  | zero => rfl
  | succ n ih => exact congrArg (semicolon :: ·) (ih false)

theorem render_first (k : Nat) (d : Segment) (rest : List Token) :
    render false (newlines k ++ .segment d :: rest) = List.replicate k semicolon ++ (d.bytes ++ render true rest) := by
  have hafter : endsInSegment false (newlines k) = false := by
    induction k with
    | zero => rfl
    | succ k ih => exact ih
  rw [render_append, render_newlines, hafter]
  rfl

theorem indexOfNotChar_replicate {text : List UInt8} (htext : text ≠ []) (hhead : text.head? ≠ some semicolon)
    (hk : k < UInt32.size) : indexOfNotChar (List.replicate k semicolon ++ text) semicolon = some k := by
  obtain ⟨byte, text, rfl⟩ := List.exists_cons_of_ne_nil htext
  have hbyte : byte ≠ semicolon := fun heq => hhead (congrArg some heq)
  have hnone : (List.replicate k semicolon).findIdx? (· != semicolon) = none := by
    simp
  unfold indexOfNotChar
  rw [List.findIdx?_append, hnone]
  simp [List.findIdx?_cons, hbyte, Nat.mod_eq_of_lt hk]

/-- The first mapping of the piece is read, and what is behind it is what is left. -/
theorem decode_bytes (hd : d.InRange) (rest : List UInt8) :
    let generatedColumn := Vlq.decode (d.bytes ++ rest) 0
    let sourceIndex := Vlq.decode (d.bytes ++ rest) generatedColumn.start
    let originalLine := Vlq.decode (d.bytes ++ rest) sourceIndex.start
    let originalColumn := Vlq.decode (d.bytes ++ rest) originalLine.start
    generatedColumn.value = d.generatedColumn ∧ sourceIndex.value = d.sourceIndex ∧
      originalLine.value = d.originalLine ∧ originalColumn.value = d.originalColumn ∧
      (d.bytes ++ rest).drop originalColumn.start = rest := by
  obtain ⟨hcolumn, hsource, hline, horiginal⟩ := hd
  set a := Vlq.encode d.generatedColumn
  set b := Vlq.encode d.sourceIndex
  set c := Vlq.encode d.originalLine
  set e := Vlq.encode d.originalColumn
  have hbytes : d.bytes = a ++ b ++ c ++ e := rfl
  have h₁ : Vlq.decode (d.bytes ++ rest) 0 = ⟨d.generatedColumn, a.length⟩ := by
    simpa [hbytes] using Vlq.decode_encode hcolumn [] (b ++ c ++ e ++ rest)
  have h₂ : Vlq.decode (d.bytes ++ rest) a.length = ⟨d.sourceIndex, (a ++ b).length⟩ := by
    simpa [hbytes] using Vlq.decode_encode hsource a (c ++ e ++ rest)
  have h₃ : Vlq.decode (d.bytes ++ rest) (a ++ b).length = ⟨d.originalLine, (a ++ b ++ c).length⟩ := by
    simpa [hbytes, add_assoc] using Vlq.decode_encode hline (a ++ b) (e ++ rest)
  have h₄ : Vlq.decode (d.bytes ++ rest) (a ++ b ++ c).length = ⟨d.originalColumn, d.bytes.length⟩ := by
    simpa [hbytes, add_assoc] using Vlq.decode_encode horiginal (a ++ b ++ c) rest
  simp only [h₁, h₂, h₃, h₄, List.drop_left, and_self]

theorem rewriteFirst_eq (j : List UInt8) (prev start : SourceMapState) (hd : d.InRange) (rest : List UInt8) :
    rewriteFirst j prev start (d.bytes ++ rest) =
      appendMappingToBuffer j (lastByte j) prev
        { start with
          sourceIndex := i32 (start.sourceIndex + d.sourceIndex)
          generatedColumn := i32 (start.generatedColumn + d.generatedColumn)
          originalLine := i32 (start.originalLine + d.originalLine)
          originalColumn := i32 (start.originalColumn + d.originalColumn) } ++ rest := by
  obtain ⟨hcolumn, hsource, horiginal, horiginal', hdrop⟩ := decode_bytes hd rest
  unfold rewriteFirst
  simp only [hcolumn, hsource, horiginal, horiginal', hdrop]
  simp [appendMappingToBuffer]

/-- All line breaks come first, and behind one of them a line starts at its first column. -/
theorem appendSourceMapChunk_eq (j : List UInt8) (prev start : SourceMapState)
    (rest : List UInt8) (hline : 0 ≤ start.generatedLine) (hk : k < UInt32.size) (hd : d.InRange) :
    appendSourceMapChunk j prev start (List.replicate k semicolon ++ (d.bytes ++ rest)) =
      rewriteFirst (j ++ List.replicate (start.generatedLine.toNat + k) semicolon)
        {prev with generatedColumn := if start.generatedLine.toNat + k = 0 then prev.generatedColumn else 0}
        {start with generatedColumn := if k = 0 then start.generatedColumn else 0} (d.bytes ++ rest) := by
  obtain ⟨hhead, hne⟩ := d.head_bytes hd rest
  have hindex := indexOfNotChar_replicate hne hhead hk
  unfold appendSourceMapChunk
  simp only [hindex, Option.getD_some]
  by_cases hlines : start.generatedLine = 0
  · by_cases hzero : k = 0
    · subst hzero
      simp [hlines]
      rw [← hlines]
    · have hpos : 0 < k := Nat.pos_of_ne_zero hzero
      simp [hlines, hpos, hzero]
  · have hlines' : start.generatedLine.toNat ≠ 0 := by omega
    by_cases hzero : k = 0
    · subst hzero
      simp [hlines, hlines']
    · have hpos : 0 < k := Nat.pos_of_ne_zero hzero
      simp [hlines, hlines', hpos, hzero, ← List.replicate_append_replicate]

/-! ### One turn -/

/-- What holds between two turns: the text so far is that of its tokens, and the carried state and column are
those at its end. -/
structure Joining (before : List UInt8) (last : LineColumnOffset) (s : Joiner) (tokens : List Token) : Prop where
  j : s.j = before ++ render false tokens
  within : zero.Within tokens
  inBounds : (zero.run tokens).InBounds
  generatedLine : (zero.run tokens).generatedLine = last.lines
  state : {s.prevEndState with generatedLine := last.lines} = zero.run tokens
  column : s.prevColumnOffset = last.columns

namespace Joining
variable {before : List UInt8} {last : LineColumnOffset} {s : Joiner} {tokens : List Token}

variable {offset : LineColumnOffset} {sourceIds : ArrayMap Nat Int} {source : Nat}

/-- The state that a piece starts in, with the column of its start -/
theorem startState_eq (h : Joining before last s tokens) (source : Int) (hstart : (last.add offset).InBounds) :
    startState source s.prevColumnOffset offset = ⟨offset.lines, (last.add offset).columns, source, 0, 0⟩ := by
  have hcolumns := hstart.2
  rw [LineColumnOffset.add_columns] at hcolumns
  unfold startState
  rw [LineColumnOffset.add_columns, h.column]
  by_cases hlines : offset.lines = 0
  · simp only [hlines, if_true] at hcolumns ⊢
    rw [add_comm offset.columns, i32_of_range (by unfold Int32Range; omega)]
    rfl
  · simp only [if_neg hlines]
    rfl

/-- The first mapping is written as the difference to the end of the text before. -/
theorem text (h : Joining before last s tokens) (hbefore : needsComma (lastByte before) = false)
    {n k source : Nat} {d : Segment} (rest : List Token) (hn : offset.lines = n)
    (hd : d.InRange) (hk : k < UInt32.size) (hstart : (last.add offset).InBounds)
    (hfirst : ((first k d).place (last.add offset) source).InBounds) (hwithin : zero.Within (tokens ++ newlines (n + k))) :
    appendSourceMapChunk s.j s.prevEndState (startState source s.prevColumnOffset offset)
        (render false (newlines k ++ .segment d :: rest)) =
      before ++ render false (tokens ++ rebased (zero.run tokens) n k (last.add offset) source d rest) := by
  have hrun : zero.run (tokens ++ newlines (n + k)) = (zero.run tokens).run (newlines (n + k)) := run_append _ _ _
  -- the carried state is that at the end of the text, but for the line, which is not written
  have hprev :
      { s.prevEndState with
        generatedLine := last.lines + (n + k : Nat)
        generatedColumn := if n + k = 0 then s.prevEndState.generatedColumn else 0 } =
        zero.run (tokens ++ newlines (n + k)) := by
    rw [hrun, ← h.state, run_newlines]
  have hcurrent :
      (⟨((first k d).place (last.add offset) source).generatedLine,
        i32 ((if k = 0 then (last.add offset).columns else 0) + d.generatedColumn), i32 (source + d.sourceIndex),
        i32 (0 + d.originalLine), i32 (0 + d.originalColumn)⟩ : SourceMapState) =
        (first k d).place (last.add offset) source := by
    have hcolumn := hfirst.generatedColumn
    have hsource := hfirst.sourceIndex
    have hline := hfirst.originalLine
    have horiginal := hfirst.originalColumn
    rw [place_generatedColumn] at hcolumn
    simp only [place, first_eq] at hcolumn hsource hline horiginal
    apply place_ext
    · exact place_generatedLine _ source _
    · simp only [first_eq]
      by_cases hzero : k = 0
      · simp only [hzero, Nat.cast_zero, if_true] at hcolumn ⊢
        exact i32_of_range (by unfold Int32Range; omega)
      · have hne : (k : Int) ≠ 0 := Int.natCast_ne_zero.2 hzero
        simp only [hzero, if_neg hne, if_false, zero_add] at hcolumn ⊢
        exact i32_of_range (by unfold Int32Range; omega)
    · simp only [first_eq]
      rw [add_comm, i32_of_range (by unfold Int32Range; omega)]
    · simp only [first_eq, zero_add]
      exact i32_of_range (by unfold Int32Range; omega)
    · simp only [first_eq, zero_add]
      exact i32_of_range (by unfold Int32Range; omega)
  have hjoined := render_segment before hbefore zero_inBounds hwithin (run_inBounds zero_inBounds hwithin) hfirst
  have hbuffer : s.j ++ List.replicate (n + k) semicolon = before ++ render false (tokens ++ newlines (n + k)) := by
    rw [render_append, render_newlines, h.j, List.append_assoc]
  rw [h.startState_eq source hstart, render_first, appendSourceMapChunk_eq _ _ _ _ (by simp [hn]) hk hd,
    rewriteFirst_eq _ _ _ hd]
  simp only [hn, Int.toNat_natCast, hbuffer]
  show appendMappingToBuffer _ _
    { s.prevEndState with
      generatedLine := last.lines + (n + k : Nat)
      generatedColumn := if n + k = 0 then s.prevEndState.generatedColumn else 0 }
    ⟨((first k d).place (last.add offset) source).generatedLine,
      i32 ((if k = 0 then (last.add offset).columns else 0) + d.generatedColumn), i32 (source + d.sourceIndex),
      i32 (0 + d.originalLine), i32 (0 + d.originalColumn)⟩ ++ _ = _
  have hrest (segment : Segment) : render false (tokens ++ newlines (n + k) ++ .segment segment :: rest) =
      render false (tokens ++ newlines (n + k) ++ [.segment segment]) ++ render true rest := by
    rw [List.append_cons, render_append false _ rest, endsInSegment_append]
    rfl
  rw [hprev, hcurrent, hjoined, List.append_assoc, hrun, rebased, ← List.append_assoc tokens, hrest]

/-- The text, the state and the column that go into the next turn -/
theorem carries (h : Joining before last s tokens) {r : PieceResult}
    (hsource : sourceIds.get? r.sourceIndex = some ↑source) (hstart : (last.add r.generatedOffset).InBounds)
    (hend : ((last.add r.generatedOffset).add r.extent).InBounds) (hindex : r.piece.chunk.endState.sourceIndex = 0)
    (hplace : (r.piece.chunk.endState.place (last.add r.generatedOffset) source).InBounds) :
    (s.append sourceIds r.result).j =
        appendSourceMapChunk s.j s.prevEndState (startState source s.prevColumnOffset r.generatedOffset)
          r.piece.chunk.buffer ∧
      { (s.append sourceIds r.result).prevEndState with
        generatedLine := ((last.add r.generatedOffset).add r.extent).lines } =
        r.piece.chunk.endState.place (last.add r.generatedOffset) source ∧
      (s.append sourceIds r.result).prevColumnOffset = ((last.add r.generatedOffset).add r.extent).columns := by
  have hcolumn := hplace.generatedColumn
  have hcolumns := hend.2
  rw [place_generatedColumn] at hcolumn
  rw [LineColumnOffset.add_columns] at hcolumns
  have hlines : r.extent.lines = r.piece.chunk.endState.generatedLine := rfl
  have hfinal : r.extent.columns = r.piece.chunk.finalGeneratedColumn := rfl
  unfold Joiner.append
  simp only [PieceResult.result, hsource, Option.getD_some, h.startState_eq source hstart]
  by_cases hline : r.piece.chunk.endState.generatedLine = 0
  · simp only [hline, hlines, hfinal, if_true] at hcolumn hcolumns ⊢
    refine ⟨trivial, ?_, ?_⟩
    · apply place_ext
      · rw [LineColumnOffset.add_lines, hlines]
      · rw [if_pos hline, add_comm]
        exact i32_of_range (by unfold Int32Range; omega)
      · rw [hindex, zero_add]
      all_goals rfl
    · rw [LineColumnOffset.add_columns _ r.extent, hlines, if_pos hline, hfinal, add_comm]
      exact i32_of_range (by unfold Int32Range; omega)
  · simp only [if_neg hline]
    refine ⟨trivial, ?_, ?_⟩
    · apply place_ext
      · rw [LineColumnOffset.add_lines, hlines]
      · rw [if_neg hline]
      · rw [hindex, zero_add]
      all_goals rfl
    · rw [LineColumnOffset.add_columns _ r.extent, hlines, if_neg hline, hfinal]

theorem append (h : Joining before last s tokens) (hbefore : needsComma (lastByte before) = false)
    {r : PieceResult} (hsource : sourceIds.get? r.sourceIndex = some ↑source)
    (hoffset : r.generatedOffset.InBounds) (hstart : (last.add r.generatedOffset).InBounds)
    (hend : ((last.add r.generatedOffset).add r.extent).InBounds)
    (hplaces : ∀ p ∈ r.states.map (place (last.add r.generatedOffset) source), p.InBounds) :
    ∃ added, Joining before ((last.add r.generatedOffset).add r.extent) (s.append sourceIds r.result) (tokens ++ added) ∧
      (zero.run tokens).positions added = r.states.map (place (last.add r.generatedOffset) source) := by
  obtain ⟨n, hn⟩ := Int.eq_ofNat_of_zero_le hoffset.1.1
  obtain ⟨k, d, rest, htokens⟩ := split_first r.piece.mapping
  have hlines : (last.add r.generatedOffset).lines = (zero.run tokens).generatedLine + n := by
    rw [LineColumnOffset.add_lines, h.generatedLine, hn]
  obtain ⟨hpositions, hrun⟩ := rebased_spec source d rest hlines
  rw [← htokens] at hpositions hrun
  have hfirst : first k d ∈ r.states := by
    show first k d ∈ zero.positions r.piece.tokens
    rw [htokens]
    exact first_mem k d rest
  -- every state on the way is in bounds
  have hextent : (zero.run (tokens ++ rebased (zero.run tokens) n k (last.add r.generatedOffset) source d rest)) =
      r.piece.chunk.endState.place (last.add r.generatedOffset) source := by
    rw [run_append, hrun, ← r.piece.endState]
  have hline : (r.piece.chunk.endState.place (last.add r.generatedOffset) source).generatedLine =
      ((last.add r.generatedOffset).add r.extent).lines := by
    rw [place_generatedLine]
    exact (LineColumnOffset.add_lines _ r.extent).symm
  have hwithin : zero.Within (tokens ++ rebased (zero.run tokens) n k (last.add r.generatedOffset) source d rest) := by
    apply within_of_positions zero_inBounds
    · rw [positions_append, hpositions]
      intro p hp
      rcases List.mem_append.1 hp with hp | hp
      · exact positions_inBounds h.within p hp
      · exact hplaces p hp
    · rw [hextent, hline]
      exact hend.1.2
  have hinBounds := run_inBounds zero_inBounds hwithin
  have hwithin' : zero.Within (tokens ++ newlines (n + k)) := by
    rw [rebased, ← List.append_assoc] at hwithin
    exact (within_append hwithin).1
  have hpiece : zero.Within (newlines k ++ .segment d :: rest) := by
    rw [← htokens]
    apply within_of_positions zero_inBounds r.piece.positions
    rw [← r.piece.endState]
    exact r.piece.generatedLine
  have hd : d.InRange :=
    Segment.inRange_of_move (run_inBounds zero_inBounds (within_append hpiece).1) (within_append hpiece).2.1
  have hk : k < UInt32.size := by
    have := (r.piece.positions _ hfirst).generatedLine
    rw [first_eq] at this
    show k < 4294967296
    simp only at this
    omega
  have htext := h.text hbefore (n := n) rest hn hd hk hstart
    (hplaces _ (List.mem_map_of_mem hfirst)) hwithin'
  rw [← htokens, ← r.piece.buffer] at htext
  refine ⟨_, ?_, hpositions⟩
  have hsourceIndex : r.piece.chunk.endState.sourceIndex = 0 := by
    rw [r.piece.endState]
    exact run_sourceIndex rfl r.piece.source
  rw [hextent] at hinBounds
  obtain ⟨hj, hstate, hcolumn⟩ := h.carries hsource hstart hend hsourceIndex hinBounds
  exact
    { j := hj.trans htext
      within := hwithin
      inBounds := by rw [hextent]; exact hinBounds
      generatedLine := by rw [hextent]; exact hline
      state := by rw [hextent]; exact hstate
      column := hcolumn }

end Joining

/-! ### The whole map -/

theorem joining_init {before : List UInt8} : Joining before ⟨0, 0⟩ ⟨before, zero, 0⟩ [] where
  j := (List.append_nil before).symm
  within := trivial
  inBounds := zero_inBounds
  generatedLine := rfl
  state := rfl
  column := rfl

/-- Induction on the pieces: after each turn the text is that of the mappings so far. -/
theorem Joining.foldl {before : List UInt8} (hbefore : needsComma (lastByte before) = false)
    (sourceIds : ArrayMap Nat Int) (sources : List Nat)
    (hsources : ∀ r ∈ results, sourceIds.get? r.sourceIndex = some ↑(sources.idxOf r.sourceIndex)) :
    ∀ {last : LineColumnOffset} {s : Joiner} {tokens : List Token}, Joining before last s tokens → Fits last results →
      (∀ p ∈ joined sources last results, p.InBounds) →
      ∃ added, ((results.map PieceResult.result).foldl (Joiner.append sourceIds) s).j =
          before ++ render false (tokens ++ added) ∧
        zero.Within (tokens ++ added) ∧ (zero.run tokens).positions added = joined sources last results := by
  induction results with
  | nil =>
    intro last s tokens h _ _
    refine ⟨[], ?_, ?_, rfl⟩
    · rw [List.append_nil]
      exact h.j
    · rw [List.append_nil]
      exact h.within
  | cons r results ih =>
    intro last s tokens h hfits hplaces
    obtain ⟨hoffset, hstart, hend, hfits⟩ := hfits
    have hplaces' := List.forall_mem_append.1 hplaces
    obtain ⟨added, h', hadded⟩ :=
      h.append hbefore (hsources r List.mem_cons_self) hoffset hstart hend hplaces'.1
    obtain ⟨added', hj, hwithin, hadded'⟩ :=
      ih (fun r' hr' => hsources r' (List.mem_cons_of_mem _ hr')) h' hfits hplaces'.2
    refine ⟨added ++ added', ?_, ?_, ?_⟩
    · rw [← List.append_assoc]
      exact hj
    · rw [← List.append_assoc]
      exact hwithin
    · rw [positions_append, hadded, ← run_append, hadded']
      rfl

theorem needsComma_mappingsKey (sources : List UInt8) : needsComma (lastByte (sources ++ mappingsKey)) = false := by
  rw [lastByte_append (by decide)]
  decide

theorem place_inBounds {p : SourceMapState} {source : Int} (hp : p.InBounds)
    (hindex : p.sourceIndex = 0) (hgenerated : (p.place start source).generated.InBounds)
    (hsource : 0 ≤ source ∧ source < 2147483648) : (p.place start source).InBounds where
  generatedLine := hgenerated.1
  generatedColumn := hgenerated.2
  sourceIndex := by
    show 0 ≤ p.sourceIndex + source ∧ p.sourceIndex + source < 2147483648
    rw [hindex]
    omega
  originalLine := hp.originalLine
  originalColumn := hp.originalColumn

theorem joined_bounds {sources : List Nat} {sourcesCount : Int}
    (hcount : sources.length ≤ sourcesCount) (hmax : sourcesCount < 2147483648)
    (hsources : ∀ r ∈ results, r.sourceIndex ∈ sources) :
    ∀ {last : LineColumnOffset}, (∀ p ∈ joined sources last results, p.generated.InBounds) →
      ∀ p ∈ joined sources last results, p.InBounds ∧ p.sourceIndex < sourcesCount := by
  induction results with
  | nil => simp [joined]
  | cons r results ih =>
    intro last hgenerated p hp
    have hgenerated' := List.forall_mem_append.1 hgenerated
    rcases List.mem_append.1 hp with hp' | hp'
    · have hplace := hgenerated'.1 p hp'
      obtain ⟨m, hm, rfl⟩ := List.mem_map.1 hp'
      have hidx := List.idxOf_lt_length_of_mem (hsources r List.mem_cons_self)
      have hindex := r.piece.source m hm
      have hsource : (m.place (last.add r.generatedOffset) (sources.idxOf r.sourceIndex)).sourceIndex =
          sources.idxOf r.sourceIndex := by
        show m.sourceIndex + _ = _
        rw [hindex, zero_add]
      refine ⟨place_inBounds (r.piece.positions m hm) hindex hplace (by omega), ?_⟩
      rw [hsource]
      omega
    · exact ih (fun r' hr' => hsources r' (List.mem_cons_of_mem _ hr')) hgenerated'.2 p hp'

/-- The map of a chunk is read as the mappings of its pieces in order. A mapping is where its piece starts, by line,
and on the piece's first line by column, and it is in its piece's source; the original places are unchanged. A piece
starts its offset behind the end of the piece before. -/
theorem parse_generateSourceMapForChunk (contents : List UInt8) (results : List PieceResult) (allowNames : Bool)
    {sourcesCount : Int} (hcount : (sourcesOf results).length ≤ sourcesCount) (hmax : sourcesCount < 2147483648)
    (hfits : Fits ⟨0, 0⟩ results)
    (hplaces : ∀ p ∈ joined (sourcesOf results) ⟨0, 0⟩ results, p.generated.InBounds) :
    parse ⟨allowNames, false⟩ sourcesCount (generateSourceMapForChunk contents (results.map PieceResult.result)) =
      .ok ⟨false, (joined (sourcesOf results) ⟨0, 0⟩ results).map SourceMapState.toMapping⟩ := by
  have hids : (results.map PieceResult.result).map CompileResultForSourceMap.sourceIndex =
      results.map PieceResult.sourceIndex := by
    rw [List.map_map]
    rfl
  have hnumbers := sourceIdMap_numbers (results.map PieceResult.sourceIndex) (by
    show (sourcesOf results).length < _
    omega)
  have hbounds := joined_bounds hcount hmax (fun r hr => (hnumbers _ (List.mem_map_of_mem hr)).1) hplaces
  obtain ⟨tokens, hj, hwithin, hpositions⟩ := Joining.foldl (needsComma_mappingsKey contents)
    (sourceIdMap (results.map PieceResult.sourceIndex)) (sourcesOf results)
    (fun r hr => (hnumbers _ (List.mem_map_of_mem hr)).2) joining_init hfits fun p hp => (hbounds p hp).1
  rw [List.nil_append] at hj hwithin
  have htext : generateSourceMapForChunk contents (results.map PieceResult.result) = render false tokens := by
    unfold generateSourceMapForChunk
    simp only [hids, hj, List.drop_left]
  have hpositions' : zero.positions tokens = joined (sourcesOf results) ⟨0, 0⟩ results := hpositions
  rw [htext, parse_render hwithin (fun p hp => ?_) allowNames, hpositions']
  rw [hpositions'] at hp
  exact (hbounds p hp).2

/-- A line of code that is mapped at some column -/
def lineOf (columns : Nat) : Builder := ((Builder.init false).step (.text columns)).step (.mapping 0 0)

def linePiece (columns : Nat) (h : columns < 2) : Piece where
  chunk := (lineOf columns).generateChunk
  tokens := [.segment ⟨columns, 0, 0, 0⟩]
  buffer := by decide +revert
  endState := by decide +revert
  mapping := List.cons_ne_nil _ _
  source := by decide +revert
  positions p hp := by
    obtain rfl := List.mem_singleton.1 hp
    constructor <;> decide +revert
  generatedLine := by decide +revert
  finalGeneratedColumn := by decide +revert

/-- Two lines of one source, each on a line of its own, and one in the middle of the second -/
theorem parse_generateSourceMapForChunk_lines :
    parse ⟨true, false⟩ 2 (generateSourceMapForChunk []
        ([⟨linePiece 0 (by decide), ⟨1, 0⟩, 7⟩, ⟨linePiece 1 (by decide), ⟨1, 2⟩, 7⟩,
          ⟨linePiece 1 (by decide), ⟨0, 4⟩, 9⟩].map PieceResult.result)) =
      .ok ⟨false, [⟨⟨1, 0⟩, ⟨0, 0⟩, 0, -1⟩, ⟨⟨2, 3⟩, ⟨0, 0⟩, 0, -1⟩, ⟨⟨2, 8⟩, ⟨0, 0⟩, 1, -1⟩]⟩ :=
  parse_generateSourceMapForChunk [] [⟨linePiece 0 (by decide), ⟨1, 0⟩, 7⟩, ⟨linePiece 1 (by decide), ⟨1, 2⟩, 7⟩,
    ⟨linePiece 1 (by decide), ⟨0, 4⟩, 9⟩] true (by decide) (by decide)
    ⟨by decide, by decide, by decide, by decide, by decide, by decide, by decide, by decide, by decide, trivial⟩ (by decide)

/-- The mappings as they would be if an offset counted from the start of the whole code -/
def offsetOnly (sources : List Nat) (results : List PieceResult) : List SourceMapState :=
  results.flatMap fun r => r.states.map (place r.generatedOffset (sources.idxOf r.sourceIndex))

def eachOnItsLine : List PieceResult := [⟨linePiece 0 (by decide), ⟨1, 0⟩, 7⟩, ⟨linePiece 0 (by decide), ⟨1, 0⟩, 7⟩]

def farToTheRight : List PieceResult := [⟨linePiece 1 (by decide), ⟨0, 2147483647⟩, 7⟩]

/-- An offset counts from the end of the piece before, and a column from 2^31 on is lost. -/
theorem parse_generateSourceMapForChunk_offsets :
    parse ⟨true, false⟩ 1 (generateSourceMapForChunk [] (eachOnItsLine.map PieceResult.result)) ≠
        .ok ⟨false, (offsetOnly (sourcesOf eachOnItsLine) eachOnItsLine).map SourceMapState.toMapping⟩ ∧
      parse ⟨true, false⟩ 1 (generateSourceMapForChunk [] (farToTheRight.map PieceResult.result)) ≠
        .ok ⟨false, (offsetOnly (sourcesOf farToTheRight) farToTheRight).map SourceMapState.toMapping⟩ := by
  constructor
  · show Except.ok (⟨false, [⟨⟨1, 0⟩, ⟨0, 0⟩, 0, -1⟩, ⟨⟨2, 0⟩, ⟨0, 0⟩, 0, -1⟩]⟩ : MappingList) ≠
      Except.ok ⟨false, [⟨⟨1, 0⟩, ⟨0, 0⟩, 0, -1⟩, ⟨⟨1, 0⟩, ⟨0, 0⟩, 0, -1⟩]⟩
    decide
  · show Except.ok (⟨false, [⟨⟨0, 0⟩, ⟨0, 0⟩, 0, -1⟩]⟩ : MappingList) ≠
      Except.ok ⟨false, [⟨⟨0, 2147483648⟩, ⟨0, 0⟩, 0, -1⟩]⟩
    decide

end Funbun.SourceMap
