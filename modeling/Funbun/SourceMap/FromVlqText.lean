import Funbun.SourceMap.FromVlqLength
import Funbun.SourceMap.JoinProofs

/-! The text of the windows is read as their mappings. -/
namespace Funbun.SourceMap.Internal
open Library SourceMapState

/-- The text so far is that of tokens. -/
structure Emitted (e : Emitter) (tokens : List Token) : Prop where
  out : e.out = render false tokens
  prev : e.prev = zero.run tokens
  line : e.generatedLine = (zero.run tokens).generatedLine
  inBounds : ∀ p ∈ zero.positions tokens, p.InBounds
  prevInBounds : e.prev.InBounds

theorem emitted_init : Emitted ⟨[], .zero, 0⟩ [] where
  out := rfl
  prev := rfl
  line := rfl
  inBounds := fun _ hp => absurd hp List.not_mem_nil
  prevInBounds := zero_inBounds

/-- The line of the mapping before is not written. -/
theorem appendMappingToBuffer_line (buffer : List UInt8) (last : UInt8) (prev current : SourceMapState) (line : Int) :
    appendMappingToBuffer buffer last {prev with generatedLine := line} current =
      appendMappingToBuffer buffer last prev current := rfl

/-- A mapping becomes its line breaks and a segment. -/
theorem Emitted.emit {e : Emitter} {tokens : List Token} (h : Emitted e tokens) {state : SourceMapState}
    (hstate : state.InBounds) (hline : e.generatedLine ≤ state.generatedLine) :
    ∃ tokens', Emitted (e.emit state) tokens' ∧ zero.positions tokens' = zero.positions tokens ++ [state] ∧
      (e.emit state).generatedLine = state.generatedLine := by
  have hrun := run_newlines (zero.run tokens) (state.generatedLine - e.generatedLine).toNat
  generalize hn : (state.generatedLine - e.generatedLine).toNat = n at hrun
  have hlast : (zero.run (tokens ++ newlines n)).generatedLine = state.generatedLine := by
    rw [run_append, hrun]
    show (zero.run tokens).generatedLine + n = _
    rw [← h.line]
    omega
  have hpositions : zero.positions (tokens ++ newlines n) = zero.positions tokens := by
    rw [positions_append, positions_newlines, List.append_nil]
  have hwithin : zero.Within (tokens ++ newlines n) := by
    apply within_of_positions zero_inBounds
    · rw [hpositions]
      exact h.inBounds
    · rw [hlast]
      exact hstate.generatedLine.2
  have hmove : (zero.run (tokens ++ newlines n)).move (state.sub (zero.run (tokens ++ newlines n))) = state :=
    move_sub hlast.symm
  have hsegment := render_segment [] rfl zero_inBounds hwithin (run_inBounds zero_inBounds hwithin) hstate
  have hprev : ∃ line, (if n = 0 then e.prev else {e.prev with generatedColumn := 0}) =
      {zero.run (tokens ++ newlines n) with generatedLine := line} := by
    refine ⟨e.prev.generatedLine, ?_⟩
    rw [run_append, hrun, ← h.prev]
    split <;> rfl
  obtain ⟨line, hprev⟩ := hprev
  have hrender : render false (tokens ++ newlines n) = e.out ++ List.replicate n semicolon := by
    rw [render_append, render_newlines, h.out]
  refine ⟨tokens ++ newlines n ++ [.segment (state.sub (zero.run (tokens ++ newlines n)))], ?_, ?_, ?_⟩
  · constructor
    · rw [List.nil_append, List.nil_append, hrender] at hsegment
      rw [← hsegment]
      unfold Emitter.emit
      simp only [hn, hprev]
      exact appendMappingToBuffer_line _ _ _ _ line
    · rw [run_append]
      exact hmove.symm
    · show e.generatedLine + ((state.generatedLine - e.generatedLine).toNat : Int) = _
      rw [run_append]
      show _ = ((zero.run (tokens ++ newlines n)).move _).generatedLine
      rw [hmove]
      omega
    · intro p hp
      rw [positions_append, hpositions] at hp
      rcases List.mem_append.1 hp with hp | hp
      · exact h.inBounds p hp
      · have heq : p = state := (List.mem_singleton.1 hp).trans hmove
        exact heq ▸ hstate
    · exact hstate
  · rw [positions_append, hpositions]
    exact congrArg (fun s => zero.positions tokens ++ [s]) hmove
  · show e.generatedLine + ((state.generatedLine - e.generatedLine).toNat : Int) = _
    omega

variable {calls : List Call}

/-- Induction on the calls. The lines only grow. -/
theorem Emitted.run (hcalls : ∀ m, .mapping m ∈ calls → m.InBounds) {line : Int} {e : Emitter}
    {tokens : List Token} (h : Emitted e tokens) (hnonneg : 0 ≤ line) (hline : e.generatedLine ≤ line)
    (hlines : line + separators calls < 2147483648) :
    ∃ tokens', Emitted ((appended line calls).foldl Emitter.emit e) tokens' ∧
      zero.positions tokens' = zero.positions tokens ++ appended line calls := by
  induction calls generalizing line e tokens with
  | nil => exact ⟨tokens, h, (List.append_nil _).symm⟩
  | cons call calls ih =>
    have hrest : ∀ m, .mapping m ∈ calls → m.InBounds := fun m hm => hcalls m (List.mem_cons_of_mem _ hm)
    cases call with
    | lineSeparator =>
      rw [separators] at hlines
      exact ih hrest h (by omega) (by omega) (by omega)
    | mapping m =>
      rw [separators] at hlines
      have hm := hcalls m List.mem_cons_self
      have hstate : SourceMapState.InBounds {m with generatedLine := line} :=
        ⟨⟨hnonneg, by show line < _; omega⟩, hm.generatedColumn, hm.sourceIndex, hm.originalLine, hm.originalColumn⟩
      obtain ⟨tokens₁, h₁, hpositions₁, hline₁⟩ := h.emit hstate hline
      obtain ⟨tokens', h', hpositions'⟩ := ih hrest h₁ hnonneg (le_of_eq hline₁) hlines
      refine ⟨tokens', h', ?_⟩
      rw [hpositions', hpositions₁, List.append_assoc]
      rfl

/-! ### There and back -/

theorem mem_appended {line : Int} {s : SourceMapState} (h : s ∈ appended line calls) :
    ∃ m, .mapping m ∈ calls ∧ m.sourceIndex = s.sourceIndex := by
  induction calls generalizing line with
  | nil => exact absurd h List.not_mem_nil
  | cons call calls ih =>
    cases call with
    | lineSeparator =>
      obtain ⟨m, hm, heq⟩ := ih h
      exact ⟨m, List.mem_cons_of_mem _ hm, heq⟩
    | mapping m =>
      rcases List.mem_cons.1 h with rfl | h
      · exact ⟨m, List.mem_cons_self, rfl⟩
      · obtain ⟨m', hm, heq⟩ := ih h
        exact ⟨m', List.mem_cons_of_mem _ hm, heq⟩

theorem exists_appended {m : SourceMapState} (h : .mapping m ∈ calls) (line : Int) :
    ∃ s ∈ appended line calls, s.sourceIndex = m.sourceIndex := by
  induction calls generalizing line with
  | nil => exact absurd h List.not_mem_nil
  | cons call calls ih =>
    cases call with
    | lineSeparator =>
      have htail : .mapping m ∈ calls := by simpa using h
      exact ih htail (line + 1)
    | mapping m' =>
      rcases List.mem_cons.1 h with heq | htail
      · cases heq
        exact ⟨_, List.mem_cons_self, rfl⟩
      · obtain ⟨s, hs, heq⟩ := ih htail line
        exact ⟨s, List.mem_cons_of_mem _ hs, heq⟩

theorem parse_appendVlqTo {blob : List UInt8} (hblob : decodeWindows blob = appended 0 calls)
    (hcalls : ∀ m, .mapping m ∈ calls → m.InBounds) (hlines : separators calls < 2147483648) {sourcesCount : Int}
    (hcount : ∀ s ∈ decodeWindows blob, s.sourceIndex < sourcesCount) :
    parse ⟨false, false⟩ sourcesCount (appendVlqTo blob []) =
      .ok ⟨false, (appended 0 calls).map SourceMapState.toMapping⟩ := by
  obtain ⟨tokens, hemitted, hpositions⟩ := emitted_init.run hcalls le_rfl le_rfl (by omega : (0 : Int) + separators calls < _)
  have hpositions : zero.positions tokens = appended 0 calls := hpositions
  have hwithin : zero.Within tokens := by
    apply within_of_positions zero_inBounds hemitted.inBounds
    rw [← hemitted.prev]
    exact hemitted.prevInBounds.generatedLine.2
  unfold appendVlqTo
  rw [hblob] at hcount ⊢
  rw [hemitted.out, parse_render hwithin (by rw [hpositions]; exact hcount) false, hpositions]

theorem fromVlq_or (vlq : List UInt8) (inputLineCountHint : Nat) (sourcesCount : Int) (hlength : vlq.length < 2147483648) :
    (fromVlq vlq inputLineCountHint = .error .invalidSourceMap ∧ Refused (parse ⟨false, false⟩ sourcesCount vlq)) ∨
    ∃ blob calls, fromVlq vlq inputLineCountHint = .ok (some blob) ∧ decodeWindows blob = appended 0 calls ∧
      (∀ m, .mapping m ∈ calls → m.InBounds) ∧ separators calls < 2147483648 ∧
      Outcome sourcesCount calls (parse ⟨false, false⟩ sourcesCount vlq) fun list =>
        list = ⟨false, (appended 0 calls).map SourceMapState.toMapping⟩ := by
  have hcount : vlq.count semicolon ≤ vlq.length := List.count_le_length
  have hbound : separators [] + vlq.count semicolon < 2147483648 := by
    show 0 + _ < _
    omega
  unfold fromVlq parse
  rcases agree_init.read_or (n := vlq.length + 1) vlq hbound with
    ⟨hread, hrefused⟩ | ⟨r, calls, hread, hlines, htraced, houtcome⟩
  · left
    rw [hread]
    exact ⟨rfl, hrefused.bind _⟩
  · have hfits : Fits calls := by
      intro s hs
      have hs := htraced.inBounds s hs
      have hcolumn := hs.generatedColumn
      have hsource := hs.sourceIndex
      have hline := hs.originalLine
      have horiginal := hs.originalColumn
      constructor <;> (try unfold Int32Range) <;> simp only <;> omega
    have hstream := length_winStream hlength hread
    have hbuilder : r.builder = calls.foldl Builder.call .init := htraced.builder
    rw [hbuilder] at hstream
    obtain ⟨blob, hblob, hdecode⟩ := decodeWindows_finalize calls hfits (by omega) hstream r.builder.count
      (max inputLineCountHint (r.maxOriginalLine.toNat + 1))
    refine .inr ⟨_, calls, ?_, hdecode, htraced.inBounds, by omega, ?_⟩
    · rw [hread]
      show Except.ok (r.builder.finalize.map _) = _
      rw [hbuilder, hblob, ← hbuilder]
      rfl
    · rcases houtcome with ⟨hmax, hrefused⟩ | ⟨hlt, s, hok, hagree⟩
      · exact .inl ⟨hmax, hrefused.bind _⟩
      · refine .inr ⟨hlt, _, ?_, hagree.mapping⟩
        rw [hok]
        show Except.ok (if s.needsSort && false then _ else s.mapping) = _
        rw [Bool.and_false]
        rfl

/-- A list is made of a text if windows are, and no mapping in these has a source that does not exist. The text of the
windows is then read as the same list. -/
theorem appendVlqTo_fromVlq (vlq : List UInt8) (inputLineCountHint : Nat) (sourcesCount : Int)
    (hlength : vlq.length < 2147483648) :
    ((∃ list, parse ⟨false, false⟩ sourcesCount vlq = .ok list) ↔
      ∃ blob, fromVlq vlq inputLineCountHint = .ok (some blob) ∧
        ∀ s ∈ decodeWindows blob, s.sourceIndex < sourcesCount) ∧
    ∀ blob, fromVlq vlq inputLineCountHint = .ok (some blob) →
      (∀ s ∈ decodeWindows blob, s.sourceIndex < sourcesCount) →
      parse ⟨false, false⟩ sourcesCount (appendVlqTo blob []) = parse ⟨false, false⟩ sourcesCount vlq := by
  rcases fromVlq_or vlq inputLineCountHint sourcesCount hlength with
    ⟨hread, e, hparse⟩ | ⟨blob, calls, hread, hdecode, hcalls, hlines, houtcome⟩
  · rw [hread, hparse]
    exact ⟨⟨fun ⟨_, h⟩ => (nomatch h), fun ⟨_, h, _⟩ => (nomatch h)⟩, fun _ h => (nomatch h)⟩
  rw [hread]
  rcases houtcome with ⟨⟨m, hm, hcount⟩, e, hparse⟩ | ⟨hlt, list, hparse, rfl⟩
  · obtain ⟨s, hs, heq⟩ := exists_appended hm 0
    have hnone : ∀ blob', Except.ok (some blob) = (Except.ok (some blob') : Except FromVlqError _) →
        ¬∀ s ∈ decodeWindows blob', s.sourceIndex < sourcesCount := by
      intro blob' hblob hall
      cases hblob
      have := hall s (hdecode ▸ hs)
      omega
    rw [hparse]
    exact ⟨⟨fun ⟨_, h⟩ => (nomatch h), fun ⟨blob', h, hall⟩ => absurd hall (hnone blob' h)⟩,
      fun blob' h hall => absurd hall (hnone blob' h)⟩
  · have hall : ∀ s ∈ decodeWindows blob, s.sourceIndex < sourcesCount := by
      intro s hs
      rw [hdecode] at hs
      obtain ⟨m, hm, heq⟩ := mem_appended hs
      rw [← heq]
      exact hlt m hm
    refine ⟨⟨fun _ => ⟨blob, rfl, hall⟩, fun _ => ⟨_, hparse⟩⟩, ?_⟩
    intro blob' hblob _
    cases hblob
    rw [hparse, parse_appendVlqTo hdecode hcalls hlines hall]

/-- `A,CAAA;;CCECA` -/
theorem appendVlqTo_fromVlq_lines :
    ∃ blob, fromVlq [65, 44, 67, 65, 65, 65, 59, 59, 67, 67, 69, 67, 65] 0 = .ok (some blob) ∧
      parse ⟨false, false⟩ 2 (appendVlqTo blob []) = .ok ⟨false, [⟨⟨0, 1⟩, ⟨0, 0⟩, 0, -1⟩, ⟨⟨2, 1⟩, ⟨2, 1⟩, 1, -1⟩]⟩ := by
  obtain ⟨hiff, hsame⟩ :=
    appendVlqTo_fromVlq [65, 44, 67, 65, 65, 65, 59, 59, 67, 67, 69, 67, 65] 0 2 (by decide)
  obtain ⟨blob, hblob, hall⟩ := hiff.1 ⟨_, rfl⟩
  exact ⟨blob, hblob, (hsame blob hblob hall).trans rfl⟩

/-- `A+/////DAA`: windows keep the greatest source index, and no list does. -/
theorem fromVlq_source_max :
    ¬∀ vlq inputLineCountHint, (∃ blob, fromVlq vlq inputLineCountHint = .ok (some blob)) ↔
      ∃ list, parse ⟨false, false⟩ 2147483647 vlq = .ok list := by
  intro h
  obtain ⟨list, hlist⟩ := (h [65, 43, 47, 47, 47, 47, 47, 68, 65, 65] 0).1 ⟨_, rfl⟩
  have hparse : parse ⟨false, false⟩ 2147483647 [65, 43, 47, 47, 47, 47, 47, 68, 65, 65] =
      .error ⟨"Invalid source index value", "InvalidSourceIndexValue", 2147483647, 1⟩ := rfl
  rw [hparse] at hlist
  cases hlist

end Funbun.SourceMap.Internal
