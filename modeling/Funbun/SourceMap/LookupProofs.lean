import Funbun.SourceMap.InternalProofs
import Funbun.SourceMap.Lookup

/-! All lookups agree.

Each finds the last mapping that is not behind the target. A slot of the cache holds the first mappings of its window and a
reader behind them (`ReadUpTo`), whatever happened before. What a cursor would read from its mapping on is the rest of the
blob (`Cursor.At`). -/
namespace Funbun.SourceMap
open Library

/-! ### Lists -/

theorem halve_eq (before : Nat → Bool) (index count : Nat) :
    halve before index count = binarySearch before index (index + count) := by
  fun_induction halve before index count with
  | case1 index count hpos hbefore ih =>
    have hmid : index + (index + count - index) / 2 = index + count / 2 := by rw [Nat.add_sub_cancel_left]
    have hhi : index + count / 2 + 1 + (count - (count / 2 + 1)) = index + count := by omega
    rw [ih, binarySearch.eq_def before index, if_pos (by omega), hmid, if_pos hbefore, hhi]
  | case2 index count hpos hbefore ih =>
    have hmid : index + (index + count - index) / 2 = index + count / 2 := by rw [Nat.add_sub_cancel_left]
    rw [ih, binarySearch.eq_def before index (index + count), if_pos (by omega), hmid, if_neg hbefore]
  | case3 index count hzero =>
    rw [binarySearch.eq_def, if_neg (by omega)]

/-- The last mapping that is not behind the target, or none when it is on another line -/
def lastMapping (mappings : List Mapping) (target : LineColumnOffset) : Option Mapping :=
  (lastWith (·.generated.lessOrEqual target) mappings).filter fun m => decide (m.generated.lines = target.lines)

/-- In the order of the generated code. Mappings may be in one place. -/
def Sorted (mappings : List Mapping) : Prop :=
  mappings.Pairwise fun a b => a.generated.lessOrEqual b.generated = true

theorem LineColumnOffset.lessOrEqual_iff {a b : LineColumnOffset} :
    a.lessOrEqual b = true ↔ a.lines < b.lines ∨ a.lines = b.lines ∧ a.columns ≤ b.columns := by
  simp [lessOrEqual]

theorem Sorted.falls {mappings : List Mapping} (h : Sorted mappings) (target : LineColumnOffset) :
    Falls (·.generated.lessOrEqual target) mappings := by
  apply List.Pairwise.imp _ h
  intro a b hab hb
  rw [LineColumnOffset.lessOrEqual_iff] at hab hb ⊢
  omega

theorem MappingList.find_eq (list : MappingList) (target : LineColumnOffset) (h : Sorted list.mappings) :
    list.find target = (lastMapping list.mappings target).map fun m => if list.withNames then m else m.unnamed := by
  have hfalls := h.falls target
  have hcut := hfalls.search
  have hplaces : (fun i : Nat => ((list.mappings.map Mapping.generated)[i]?).any fun m : LineColumnOffset => m.lessOrEqual target) =
      fun i : Nat => (list.mappings[i]?).any fun m : Mapping => m.generated.lessOrEqual target := by
    funext i
    rw [List.getElem?_map]
    cases list.mappings[i]? <;> rfl
  have hindex :
      halve (fun i : Nat => ((list.mappings.map Mapping.generated)[i]?).any fun m : LineColumnOffset => m.lessOrEqual target)
        0 (list.mappings.map Mapping.generated).length =
      binarySearch (fun i : Nat => (list.mappings[i]?).any fun m : Mapping => m.generated.lessOrEqual target) 0 list.mappings.length := by
    rw [halve_eq, hplaces, Nat.zero_add, List.length_map]
  unfold lastMapping
  rw [lastWith_cutAt hcut]
  unfold find findIndexFromGenerated
  simp only [hindex]
  generalize binarySearch (fun i : Nat => (list.mappings[i]?).any fun m : Mapping => m.generated.lessOrEqual target) 0
    list.mappings.length = k at hcut
  by_cases hk : k = 0
  · rw [if_pos hk, if_neg fun hand => by omega]
    rfl
  · have hle := hcut.le
    have hget := List.getElem?_eq_getElem (l := list.mappings) (show k - 1 < list.mappings.length by omega)
    rw [if_neg hk, List.getElem?_map, hget]
    by_cases hline : list.mappings[k - 1].generated.lines = target.lines
    · simp [hline, Nat.pos_of_ne_zero hk, hget]
    · simp [hline]

namespace Internal

/-! ### Readers -/

/-- A window does not depend on what the reader was used for before: the cursors of streams that it does not have are
never read. -/
structure SameWindow (r r' : WindowReader) : Prop where
  bytes : r.bytes = r'.bytes
  base : r.base = r'.base
  genColPos : r.genColPos = r'.genColPos
  origLineExcPos : r.origLineExcPos = r'.origLineExcPos
  origColExcPos : r.origColExcPos = r'.origColExcPos
  count : r.count = r'.count
  flags : r.flags = r'.flags
  genLineExcNextIdx : r.genLineExcNextIdx = r'.genLineExcNextIdx
  deltaIdx : r.deltaIdx = r'.deltaIdx
  lines : r.genLineExcNextIdx = 0xFF ∨ r.genLineExcPos = r'.genLineExcPos
  sources : r.flags &&& flagHasSrcIdx = 0 ∨ r.srcIdxMask = r'.srcIdxMask ∧ r.srcIdxExcPos = r'.srcIdxExcPos

theorem sameWindow_parse (r r' : WindowReader) (bytes : List UInt8) (start : Nat) :
    SameWindow (r.parse bytes start) (r'.parse bytes start) := by
  unfold WindowReader.parse WindowReader.parseHeader WindowReader.parseLines WindowReader.parseSources
  simp only
  split_ifs with hlines hsources
  · exact ⟨rfl, rfl, rfl, rfl, rfl, rfl, rfl, rfl, rfl, .inr rfl, .inr ⟨rfl, rfl⟩⟩
  · exact ⟨rfl, rfl, rfl, rfl, rfl, rfl, rfl, rfl, rfl, .inr rfl, .inl (not_not.1 hsources)⟩
  · exact ⟨rfl, rfl, rfl, rfl, rfl, rfl, rfl, rfl, rfl, .inl rfl, .inr ⟨rfl, rfl⟩⟩
  · rename_i hsources
    exact ⟨rfl, rfl, rfl, rfl, rfl, rfl, rfl, rfl, rfl, .inl rfl, .inl (not_not.1 hsources)⟩

theorem parse_count (r : WindowReader) (bytes : List UInt8) (start : Nat) : (r.parse bytes start).count ≤ syncInterval := by
  unfold WindowReader.parse WindowReader.parseHeader WindowReader.parseLines WindowReader.parseSources
  simp only
  split_ifs <;> exact Nat.min_le_right _ _

variable {r r' : WindowReader} {blob : List UInt8}

theorem SameWindow.done (h : SameWindow r r') : r.done = r'.done := by
  unfold WindowReader.done
  rw [h.count, h.deltaIdx]

theorem SameWindow.nextLine (h : SameWindow r r') {deltaIdx : Nat} (hidx : deltaIdx < 0xFF) (genLine origLine : Int) :
    SameWindow (r.nextLine deltaIdx genLine origLine).1 (r'.nextLine deltaIdx genLine origLine).1 ∧
      (r.nextLine deltaIdx genLine origLine).2 = (r'.nextLine deltaIdx genLine origLine).2 := by
  unfold WindowReader.nextLine
  rw [← h.genLineExcNextIdx, ← h.bytes, ← h.base]
  by_cases hnext : r.genLineExcNextIdx = deltaIdx
  · have hpos : r.genLineExcPos = r'.genLineExcPos := h.lines.resolve_left (by omega)
    rw [if_pos hnext, if_pos hnext, ← hpos]
    exact ⟨⟨rfl, rfl, h.genColPos, h.origLineExcPos, h.origColExcPos, h.count, h.flags, rfl, h.deltaIdx, .inr rfl,
      h.sources⟩, rfl⟩
  · rw [if_neg hnext, if_neg hnext]
    exact ⟨h, rfl⟩

theorem SameWindow.nextSource (h : SameWindow r r') (deltaIdx : Nat) (sourceIndex : Int) :
    SameWindow (r.nextSource deltaIdx sourceIndex).1 (r'.nextSource deltaIdx sourceIndex).1 ∧
      (r.nextSource deltaIdx sourceIndex).2 = (r'.nextSource deltaIdx sourceIndex).2 := by
  unfold WindowReader.nextSource
  rw [← h.flags, ← h.bytes]
  rcases h.sources with hzero | ⟨hmask, hpos⟩
  · rw [if_neg fun hand => hand.1 hzero, if_neg fun hand => hand.1 hzero]
    exact ⟨h, rfl⟩
  · rw [← hmask, ← hpos]
    split
    · exact ⟨⟨rfl, h.base, h.genColPos, h.origLineExcPos, h.origColExcPos, h.count, rfl, h.genLineExcNextIdx,
        h.deltaIdx, h.lines, .inr ⟨rfl, rfl⟩⟩, rfl⟩
    · exact ⟨h, rfl⟩

/-- The usual part of `next`: the lines, the column and the reader behind the streams that are always there -/
def WindowReader.usual (r : WindowReader) : WindowReader × Int × Int × Int × Int :=
  let genLine : Int := if testBit r.bytes (r.base + genLineMaskOff) r.deltaIdx then 1 else 0
  let genCol := readVarint r.bytes r.genColPos
  let origLine :=
    if testBit r.bytes (r.base + origLineEqMaskOff) r.deltaIdx then (genLine, r.origLineExcPos)
    else readVarint r.bytes r.origLineExcPos
  let origCol :=
    if testBit r.bytes (r.base + origColEqMaskOff) r.deltaIdx then (genCol.1, r.origColExcPos)
    else readVarint r.bytes r.origColExcPos
  ({ r with
      deltaIdx := r.deltaIdx + 1, genColPos := genCol.2, origLineExcPos := origLine.2, origColExcPos := origCol.2 },
    genLine, genCol.1, origLine.1, origCol.1)

theorem next_eq (r : WindowReader) (state : SourceMapState) :
    r.next state =
      let (r', genLine, genCol, origLine, origCol) := r.usual
      let line := if r'.flags ≠ 0 then r'.nextLine r.deltaIdx genLine origLine else (r', genLine, origLine)
      let source := if line.1.flags ≠ 0 then line.1.nextSource r.deltaIdx state.sourceIndex else (line.1, state.sourceIndex)
      (source.1,
        { generatedLine := if line.2.1 ≠ 0 then i32 (state.generatedLine + line.2.1) else state.generatedLine
          generatedColumn := if line.2.1 ≠ 0 then genCol else i32 (state.generatedColumn + genCol)
          sourceIndex := source.2
          originalLine := i32 (state.originalLine + line.2.2)
          originalColumn := i32 (state.originalColumn + origCol) }) := rfl

theorem SameWindow.usual (h : SameWindow r r') :
    SameWindow r.usual.1 r'.usual.1 ∧ r.usual.2 = r'.usual.2 := by
  unfold WindowReader.usual
  rw [← h.bytes, ← h.base, ← h.deltaIdx, ← h.genColPos, ← h.origLineExcPos, ← h.origColExcPos]
  exact ⟨⟨rfl, rfl, rfl, rfl, rfl, h.count, h.flags, h.genLineExcNextIdx, rfl, h.lines, h.sources⟩, rfl⟩

theorem SameWindow.next (h : SameWindow r r') (hidx : r.deltaIdx < 0xFF) (state : SourceMapState) :
    SameWindow (r.next state).1 (r'.next state).1 ∧ (r.next state).2 = (r'.next state).2 := by
  rw [next_eq, next_eq, ← h.deltaIdx]
  rcases h.usual with ⟨husual, heq⟩
  generalize r.usual = usual at husual heq
  generalize r'.usual = usual' at husual heq
  rcases usual with ⟨r₁, genLine, genCol, origLine, origCol⟩
  rcases usual' with ⟨r₂, _⟩
  subst heq
  simp only
  have hline :
      SameWindow (if r₁.flags ≠ 0 then r₁.nextLine r.deltaIdx genLine origLine else (r₁, genLine, origLine)).1
        (if r₂.flags ≠ 0 then r₂.nextLine r.deltaIdx genLine origLine else (r₂, genLine, origLine)).1 ∧
      (if r₁.flags ≠ 0 then r₁.nextLine r.deltaIdx genLine origLine else (r₁, genLine, origLine)).2 =
        (if r₂.flags ≠ 0 then r₂.nextLine r.deltaIdx genLine origLine else (r₂, genLine, origLine)).2 := by
    have hflags : r₁.flags = r₂.flags := husual.flags
    rw [← hflags]
    split
    · exact husual.nextLine hidx genLine origLine
    · exact ⟨husual, rfl⟩
  rcases hline with ⟨hsame, heq⟩
  rw [← heq]
  generalize (if r₁.flags ≠ 0 then r₁.nextLine r.deltaIdx genLine origLine else (r₁, genLine, origLine)) = line
    at hsame ⊢
  generalize (if r₂.flags ≠ 0 then r₂.nextLine r.deltaIdx genLine origLine else (r₂, genLine, origLine)).1 = r₃
    at hsame ⊢
  rw [← hsame.flags]
  split
  · have hsource := hsame.nextSource r.deltaIdx state.sourceIndex
    rw [hsource.2]
    exact ⟨hsource.1, rfl⟩
  · exact ⟨hsame, rfl⟩

theorem SameWindow.readWindow (h : SameWindow r r') (n : Nat) (state : SourceMapState)
    (hidx : r.deltaIdx + n ≤ 0xFF) : readWindow n r state = readWindow n r' state := by
  induction n generalizing r r' state with
  | zero => rfl
  | succ n ih =>
    have hnext := h.next (by omega) state
    rw [Internal.readWindow, Internal.readWindow, h.done, hnext.2,
      ih hnext.1 _ (by rw [WindowReader.next_deltaIdx]; omega)]

/-- What is left of the window -/
def remaining (r : WindowReader) (state : SourceMapState) : List SourceMapState := readWindow syncInterval r state

theorem readWindow_more {n m : Nat} (hle : n ≤ m) (hcount : r.count ≤ r.deltaIdx + 1 + n)
    (state : SourceMapState) : readWindow m r state = readWindow n r state := by
  induction n generalizing m r state with
  | zero =>
    have hdone : r.done = true := by simpa [WindowReader.done] using hcount
    cases m with
    | zero => rfl
    | succ m =>
      show (if r.done then [] else _) = []
      exact if_pos hdone
  | succ n ih =>
    cases m with
    | zero => omega
    | succ m =>
      rw [readWindow, readWindow, ih (by omega) (by rw [WindowReader.next_count, WindowReader.next_deltaIdx]; omega)]

theorem remaining_done (h : r.done = true) (state : SourceMapState) : remaining r state = [] :=
  if_pos h

theorem remaining_next (h : r.done = false) (hcount : r.count ≤ syncInterval)
    (state : SourceMapState) : remaining r state = (r.next state).2 :: remaining (r.next state).1 (r.next state).2 := by
  have hstep : remaining r state = (r.next state).2 :: readWindow 63 (r.next state).1 (r.next state).2 :=
    if_neg (by simp [h])
  have hcount' : (r.next state).1.count ≤ (r.next state).1.deltaIdx + 1 + 63 := by
    have : r.count ≤ 64 := hcount
    rw [WindowReader.next_count, WindowReader.next_deltaIdx]
    omega
  have hmore : remaining (r.next state).1 (r.next state).2 = readWindow 63 (r.next state).1 (r.next state).2 :=
    readWindow_more (by decide) hcount' _
  rw [hstep, hmore]

/-! ### Windows -/

section Windows
variable (blob : List UInt8)

def head (i : Nat) : SourceMapState := (syncEntry blob i).toState

def window (i : Nat) : List SourceMapState :=
  head blob i :: remaining (seedWindow blob i .dangling).2 (head blob i)

/-- The windows from one on -/
def windowsFrom (i : Nat) : List SourceMapState := (List.range' i (syncCount blob - i)).flatMap (window blob)

end Windows

section Blob
variable {blob : List UInt8}

theorem seedWindow_count (i : Nat) (r : WindowReader) : (seedWindow blob i r).2.count ≤ syncInterval := parse_count _ _ _

theorem remaining_seed (i : Nat) (r : WindowReader) :
    remaining (seedWindow blob i r).2 (head blob i) = remaining (seedWindow blob i .dangling).2 (head blob i) := by
  have hidx : (seedWindow blob i r).2.deltaIdx = 0 := by
    unfold seedWindow WindowReader.parse WindowReader.parseHeader WindowReader.parseLines WindowReader.parseSources
    simp only
    split_ifs <;> rfl
  apply (sameWindow_parse r .dangling (stream blob) _).readWindow
  rw [show ((r.parse (stream blob) (syncEntry blob i).byteOffset).deltaIdx) = 0 from hidx]
  decide

theorem window_eq (i : Nat) (r : WindowReader) : window blob i = head blob i :: remaining (seedWindow blob i r).2 (head blob i) := by
  rw [remaining_seed]
  rfl

theorem decodeWindows_windowsFrom : decodeWindows blob = windowsFrom blob 0 := by
  unfold decodeWindows windowsFrom
  rw [List.range_eq_range']
  rfl

theorem windowsFrom_lt {i : Nat} (h : i < syncCount blob) : windowsFrom blob i = window blob i ++ windowsFrom blob (i + 1) := by
  have hsub : syncCount blob - i = syncCount blob - (i + 1) + 1 := by omega
  unfold windowsFrom
  rw [hsub, List.range'_succ, List.flatMap_cons]

theorem windowsFrom_ge {i : Nat} (h : syncCount blob ≤ i) : windowsFrom blob i = [] := by
  unfold windowsFrom
  rw [Nat.sub_eq_zero_of_le h]
  rfl

variable (blob) in
theorem decodeWindows_split (i : Nat) (h : i ≤ syncCount blob) : ∃ front, decodeWindows blob = front ++ windowsFrom blob i := by
  induction i with
  | zero => exact ⟨[], decodeWindows_windowsFrom⟩
  | succ i ih =>
    rcases ih (by omega) with ⟨front, heq⟩
    refine ⟨front ++ window blob i, ?_⟩
    rw [heq, windowsFrom_lt (by omega), List.append_assoc]

theorem head_mem {i j : Nat} (hij : i ≤ j) (hj : j < syncCount blob) : head blob j ∈ windowsFrom blob i := by
  apply List.mem_flatMap.2 ⟨j, List.mem_range'_1.2 ⟨hij, by omega⟩, List.mem_cons_self⟩

variable {target : LineColumnOffset}

/-- The heads fall as the mappings do. -/
theorem heads_fall (h : Falls (·.lessOrEqual target) (decodeWindows blob)) (i j : Nat) (hij : i ≤ j)
    (hj : j < syncCount blob) (hhead : (head blob j).lessOrEqual target = true) : (head blob i).lessOrEqual target = true := by
  rcases decodeWindows_split blob i (by omega) with ⟨front, heq⟩
  rw [heq] at h
  have hfrom := h.of_append_right
  by_contra hne
  rcases Nat.lt_or_eq_of_le hij with hlt | hsame
  · rw [windowsFrom_lt (by omega)] at hfrom
    have hmem : head blob j ∈ remaining (seedWindow blob i .dangling).2 (head blob i) ++ windowsFrom blob (i + 1) :=
      List.mem_append_right _ (head_mem hlt hj)
    have := hfrom.false_of_head (by simpa using hne) _ hmem
    rw [hhead] at this
    cases this
  · rw [hsame] at hne
    exact hne hhead

theorem cut_heads (h : Falls (·.lessOrEqual target) (decodeWindows blob)) :
    CutAt (fun i => (head blob i).lessOrEqual target) (syncCount blob)
      (binarySearch (fun i => (head blob i).lessOrEqual target) 0 (syncCount blob)) :=
  cutAt_binarySearch (heads_fall h) 0 _ (Nat.zero_le _) le_rfl (fun _ hi => absurd hi (Nat.not_lt_zero _))
    fun _ hle hlt => absurd hlt (Nat.not_lt.2 hle)

theorem windowsFrom_false (h : Falls (·.lessOrEqual target) (decodeWindows blob)) {i : Nat} (hi : i ≤ syncCount blob)
    (hhead : i < syncCount blob → (head blob i).lessOrEqual target = false) :
    ∀ s ∈ windowsFrom blob i, s.lessOrEqual target = false := by
  rcases Nat.lt_or_eq_of_le hi with hlt | heq
  · rcases decodeWindows_split _ _ hi with ⟨front, heq⟩
    rw [heq] at h
    have hfrom := h.of_append_right
    rw [windowsFrom_lt hlt] at hfrom ⊢
    intro s hs
    rcases List.mem_cons.1 hs with rfl | hs
    · exact hhead hlt
    · exact hfrom.false_of_head (hhead hlt) s hs
  · rw [windowsFrom_ge (by omega)]
    simp

theorem locateWindow_none (h : Falls (·.lessOrEqual target) (decodeWindows blob)) (hnone : locateWindow blob target = none) :
    ∀ s ∈ decodeWindows blob, s.lessOrEqual target = false := by
  have hcut := cut_heads h
  unfold locateWindow at hnone
  simp only at hnone
  split_ifs at hnone with hzero
  have hzero' : binarySearch (fun i => (head blob i).lessOrEqual target) 0 (syncCount blob) = 0 := hzero
  rw [decodeWindows_windowsFrom]
  exact windowsFrom_false h (Nat.zero_le _) fun hlt => hcut.behind 0 (by omega) hlt

/-- The window where the last mapping not behind the target is -/
theorem locateWindow_some (h : Falls (·.lessOrEqual target) (decodeWindows blob)) {i : Nat}
    (hsome : locateWindow blob target = some i) :
    (head blob i).lessOrEqual target = true ∧
      (∃ front, decodeWindows blob = front ++ (window blob i ++ windowsFrom blob (i + 1))) ∧
      ∀ s ∈ windowsFrom blob (i + 1), s.lessOrEqual target = false := by
  have hcut := cut_heads h
  unfold locateWindow at hsome
  simp only at hsome
  split_ifs at hsome with hzero
  have hlo : ¬binarySearch (fun i => (head blob i).lessOrEqual target) 0 (syncCount blob) = 0 := hzero
  have hi : binarySearch (fun i => (head blob i).lessOrEqual target) 0 (syncCount blob) - 1 = i := Option.some.inj hsome
  have hle := hcut.le
  have hlt : i < syncCount blob := by omega
  refine ⟨hcut.before i (by omega), ?_, ?_⟩
  · rcases decodeWindows_split _ _ (Nat.le_of_lt hlt) with ⟨front, heq⟩
    exact ⟨front, by rw [heq, windowsFrom_lt hlt]⟩
  · exact windowsFrom_false h hlt fun hlt' => hcut.behind (i + 1) (by omega) hlt'

/-! ### One lookup -/

/-- The answer that is looked for -/
def lookup (target : LineColumnOffset) (states : List SourceMapState) : Option Mapping :=
  (lastWith (·.lessOrEqual target) states).bind (answer target)

theorem findLoop_spec (target : LineColumnOffset) : ∀ (n : Nat) (r : WindowReader) (state : SourceMapState),
    state.lessOrEqual target = true → Falls (·.lessOrEqual target) (state :: readWindow n r state) →
      lastWith (·.lessOrEqual target) (state :: readWindow n r state) = some (findLoop target n r state)
  | 0, r, state, hstate, _ => by
    apply lastWith_cons
    · exact hstate
    · simp [readWindow]
  | n + 1, r, state, hstate, hfalls => by
    rw [readWindow] at hfalls ⊢
    rw [findLoop]
    by_cases hdone : r.done = true
    · rw [if_pos hdone, if_pos hdone]
      apply lastWith_cons
      · exact hstate
      · simp
    · rw [if_neg hdone] at hfalls ⊢
      rw [if_neg hdone]
      have hrest := hfalls.of_cons
      by_cases hnext : (r.next state).2.lessOrEqual target = true
      · simp only [hnext, if_true]
        exact lastWith_cons_right (findLoop_spec target n _ _ hnext hrest)
      · -- the mappings behind the first one that is behind the target are behind it too
        have hback := hrest.false_of_head (by simpa using hnext)
        simp only [if_neg hnext]
        apply lastWith_cons
        · exact hstate
        · intro s hs
          rcases List.mem_cons.1 hs with rfl | hs
          · simpa using hnext
          · exact hback s hs

theorem find_eq (h : Falls (·.lessOrEqual target) (decodeWindows blob)) :
    find blob target = lookup target (decodeWindows blob) := by
  unfold find lookup
  cases hlocate : locateWindow blob target with
  | none =>
    rw [lastWith_eq_none (locateWindow_none h hlocate)]
    rfl
  | some i =>
    rcases locateWindow_some h hlocate with ⟨hhead, ⟨front, heq⟩, hback⟩
    rw [heq] at h ⊢
    have hlast : lastWith (fun s : SourceMapState => s.lessOrEqual target) (window blob i) =
        some (findLoop target syncInterval (seedWindow blob i .dangling).2 (head blob i)) :=
      findLoop_spec target syncInterval _ _ hhead h.of_append_right.of_append_left
    rw [lastWith_append_right ((lastWith_append_left hback).trans hlast)]
    rfl

end Blob

/-! ### The cache -/

/-- The first mappings of a window were read, and the reader is behind the last of them. -/
def ReadUpTo (blob : List UInt8) (i : Nat) (slot : FindCacheSlot) : Prop :=
  ∃ front last, slot.decoded = front ++ [last] ∧ window blob i = slot.decoded ++ remaining slot.reader last ∧
    slot.reader.count ≤ syncInterval

theorem decodeMore_spec (target : LineColumnOffset) (states : List SourceMapState) :
    ∀ (n : Nat) (r : WindowReader) (front : List SourceMapState) (last : SourceMapState), r.count ≤ syncInterval →
      r.count ≤ r.deltaIdx + 1 + n → states = front ++ [last] ++ remaining r last →
      ∃ r' front' last', decodeMore target n r last (front ++ [last]) = (r', front' ++ [last']) ∧
        states = front' ++ [last'] ++ remaining r' last' ∧ r'.count ≤ syncInterval ∧
        (remaining r' last' = [] ∨ last'.lessOrEqual target = false)
  | 0, r, front, last, hcount, hleft, hstates => by
    have hdone : r.done = true := by simpa [WindowReader.done] using hleft
    exact ⟨r, front, last, rfl, hstates, hcount, .inl (remaining_done hdone last)⟩
  | n + 1, r, front, last, hcount, hleft, hstates => by
    rw [decodeMore]
    by_cases hmore : r.done = false ∧ last.lessOrEqual target = true
    · have hcount' : (r.next last).1.count ≤ syncInterval := by
        rw [WindowReader.next_count]
        exact hcount
      have hleft' : (r.next last).1.count ≤ (r.next last).1.deltaIdx + 1 + n := by
        rw [WindowReader.next_count, WindowReader.next_deltaIdx]
        omega
      have hstates' : states = front ++ [last] ++ [(r.next last).2] ++ remaining (r.next last).1 (r.next last).2 := by
        rw [hstates, remaining_next hmore.1 hcount]
        simp
      rw [if_pos hmore]
      exact decodeMore_spec target states n (r.next last).1 (front ++ [last]) (r.next last).2 hcount' hleft' hstates'
    · rw [if_neg hmore]
      refine ⟨r, front, last, rfl, hstates, hcount, ?_⟩
      by_cases hdone : r.done = true
      · exact .inl (remaining_done hdone last)
      · right
        by_contra hne
        exact hmore ⟨by simpa using hdone, by simpa using hne⟩

section Slot
variable {blob : List UInt8} {i : Nat} {slot : FindCacheSlot}

theorem ReadUpTo.decode (h : ReadUpTo blob i slot) (target : LineColumnOffset) :
    ReadUpTo blob i (slot.decode target) ∧
      ∃ rest, window blob i = (slot.decode target).decoded ++ rest ∧
        (Falls (·.lessOrEqual target) (window blob i) → ∀ s ∈ rest, s.lessOrEqual target = false) := by
  rcases h with ⟨front, last, hdecoded, hwindow, hcount⟩
  rw [hdecoded] at hwindow
  have hcount' : slot.reader.count ≤ slot.reader.deltaIdx + 1 + syncInterval := by omega
  rcases decodeMore_spec target _ syncInterval slot.reader front last hcount hcount' hwindow with
    ⟨r', front', last', heq, hwindow', hcount'', hend⟩
  have hdecode : slot.decode target = {slot with reader := r', decoded := front' ++ [last']} := by
    unfold FindCacheSlot.decode
    rw [hdecoded, List.getLastD_concat, heq]
  rw [hdecode]
  refine ⟨⟨front', last', rfl, hwindow', hcount''⟩, _, hwindow', fun hfalls => ?_⟩
  rcases hend with hnil | hlast
  · rw [hnil]
    simp
  · rw [hwindow', List.append_assoc] at hfalls
    exact hfalls.of_append_right.false_of_head hlast

theorem search_eq (target : LineColumnOffset) (h : Falls (·.lessOrEqual target) slot.decoded) :
    slot.search target = lookup target slot.decoded := by
  have hcut := h.search
  unfold FindCacheSlot.search lookup
  rw [lastWith_cutAt hcut]
  simp only
  split <;> rfl

theorem readUpTo_seed {data : Nat}
    (h : slot.data = some data → slot.syncIdx = i → slot.decoded ≠ [] → ReadUpTo blob i slot) :
    ReadUpTo blob i (slot.seed blob data i) := by
  unfold FindCacheSlot.seed
  split
  · exact ⟨[], head blob i, rfl, window_eq i slot.reader, seedWindow_count i slot.reader⟩
  · rename_i hsame
    rw [not_or, not_or, not_not, not_not, List.length_eq_zero_iff] at hsame
    exact h hsame.1 hsame.2.1 hsame.2.2

theorem seed_data (blob : List UInt8) (slot : FindCacheSlot) (data i : Nat) :
    (slot.seed blob data i).data = some data ∧ (slot.seed blob data i).syncIdx = i := by
  unfold FindCacheSlot.seed
  split
  · exact ⟨rfl, rfl⟩
  · rename_i hsame
    rw [not_or, not_or, not_not, not_not] at hsame
    exact ⟨hsame.1, hsame.2.1⟩

end Slot

section Cache
variable {blobs : Nat → List UInt8}

/-- A slot and its key belong to the same window, or to none. -/
structure Cached (blobs : Nat → List UInt8) (key : FindCacheKey) (slot : FindCacheSlot) : Prop where
  data : slot.data = key.data
  window : ∀ data, key.data = some data → slot.syncIdx = key.syncIdx ∧ ReadUpTo (blobs data) key.syncIdx slot

structure CacheValid (blobs : Nat → List UInt8) (set : FindCache) : Prop where
  keys : set.keys.length = FindCache.slotCount
  slots : set.slots.length = FindCache.slotCount
  nextVictim : set.nextVictim < FindCache.slotCount
  cached : ∀ (i : Nat) (key : FindCacheKey) (slot : FindCacheSlot), set.keys[i]? = some key →
    set.slots[i]? = some slot → Cached blobs key slot

theorem cacheValid_empty : CacheValid blobs .empty where
  keys := List.length_replicate
  slots := List.length_replicate
  nextVictim := by decide
  cached := by
    intro i key slot hkey hslot
    have hkey' : key = ⟨none, 0⟩ := List.eq_of_mem_replicate (List.mem_of_getElem? hkey)
    have hslot' : slot = ⟨none, 0, [], .dangling⟩ := List.eq_of_mem_replicate (List.mem_of_getElem? hslot)
    rw [hkey', hslot']
    exact ⟨rfl, by simp⟩

theorem CacheValid.clear {set : FindCache} (h : CacheValid blobs set) (gone : Option Nat → Bool) :
    CacheValid blobs (set.clear gone) where
  keys := by
    show (set.keys.map _).length = _
    rw [List.length_map, h.keys]
  slots := by
    show (List.zipWith _ set.keys set.slots).length = _
    rw [List.length_zipWith, h.keys, h.slots, Nat.min_self]
  nextVictim := h.nextVictim
  cached := by
    intro i key slot hkey hslot
    have hkey' : (set.keys[i]?).map (fun k => if gone k.data then {k with data := none} else k) = some key := by
      rw [← List.getElem?_map]
      exact hkey
    rcases Option.map_eq_some_iff.1 hkey' with ⟨key, hget, rfl⟩
    rcases List.getElem?_zipWith_eq_some.1 hslot with ⟨key', slot, hget', hgetSlot, rfl⟩
    have hsame : key = key' := Option.some.inj (hget.symm.trans hget')
    subst hsame
    have hcached := h.cached i key slot hget hgetSlot
    by_cases hgone : gone key.data = true
    · rw [if_pos hgone, if_pos hgone]
      exact ⟨rfl, by simp⟩
    · rw [if_neg hgone, if_neg hgone]
      exact hcached

/-- The slot of a window. When it says that it is the window's, it is. -/
structure SlotFor (blobs : Nat → List UInt8) (data syncIdx : Nat) (set set' : FindCache) (i : Nat) : Prop where
  keys : set'.keys.length = FindCache.slotCount
  slots : set'.slots = set.slots
  nextVictim : set'.nextVictim < FindCache.slotCount
  lt : i < FindCache.slotCount
  key : set'.keys[i]? = some ⟨some data, syncIdx⟩
  others : ∀ j : Nat, j ≠ i → set'.keys[j]? = set.keys[j]?
  slot : ∀ slot, set.slots[i]? = some slot → slot.data = some data → slot.syncIdx = syncIdx →
    ReadUpTo (blobs data) syncIdx slot

theorem CacheValid.slotFor {set : FindCache} (h : CacheValid blobs set) (data syncIdx : Nat) :
    SlotFor blobs data syncIdx set (set.slotFor data syncIdx).1 (set.slotFor data syncIdx).2 := by
  have hkeys := h.keys
  have hslots := h.slots
  have hreplace (i : Nat) (hi : i < FindCache.slotCount) (set' : FindCache)
      (heq : set'.keys = set.keys.set i ⟨some data, syncIdx⟩) (heq' : set'.slots = set.slots)
      (hvictim : set'.nextVictim < FindCache.slotCount)
      (hold : ∀ key, set.keys[i]? = some key → key.data = none ∨ key ≠ ⟨some data, syncIdx⟩) :
      SlotFor blobs data syncIdx set set' i := by
    refine ⟨?_, heq', hvictim, hi, ?_, ?_, ?_⟩
    · rw [heq, List.length_set, hkeys]
    · rw [heq, List.getElem?_set_self (by omega)]
    · intro j hj
      rw [heq, List.getElem?_set_ne (Ne.symm hj)]
    · intro slot hslot hdata hidx
      have hget := List.getElem?_eq_getElem (l := set.keys) (i := i) (by omega)
      have hcached := h.cached i _ slot hget hslot
      have hkeyData : set.keys[i].data = some data := hcached.data.symm.trans hdata
      have hkeyIdx : set.keys[i].syncIdx = syncIdx := (hcached.window data hkeyData).1.symm.trans hidx
      rcases hold _ hget with hnone | hne
      · rw [hnone] at hkeyData
        cases hkeyData
      · refine absurd ?_ hne
        generalize set.keys[i] = key at hkeyData hkeyIdx
        cases key
        simp only at hkeyData hkeyIdx
        rw [hkeyData, hkeyIdx]
  unfold FindCache.slotFor
  cases hhit : set.keys.findIdx? (· == ⟨some data, syncIdx⟩) with
  | some i =>
    rcases List.findIdx?_eq_some_iff_getElem.1 hhit with ⟨hi, hkey, _⟩
    have hkey' : set.keys[i] = ⟨some data, syncIdx⟩ := by simpa using hkey
    have hget : set.keys[i]? = some ⟨some data, syncIdx⟩ := by rw [List.getElem?_eq_getElem hi, hkey']
    exact
      { keys := hkeys
        slots := rfl
        nextVictim := h.nextVictim
        lt := (show i < FindCache.slotCount by omega)
        key := hget
        others := fun _ _ => rfl
        slot := fun slot hslot _ _ => ((h.cached i _ slot hget hslot).window data rfl).2 }
  | none =>
    have hmiss : ∀ (i : Nat) (key : FindCacheKey), set.keys[i]? = some key → key ≠ ⟨some data, syncIdx⟩ := by
      intro i key hkey heq
      have := List.findIdx?_eq_none_iff.1 hhit key (List.mem_of_getElem? hkey)
      rw [heq] at this
      simp at this
    cases hnull : set.keys.findIdx? (·.data == none) with
    | some i =>
      rcases List.findIdx?_eq_some_iff_getElem.1 hnull with ⟨hi, _, _⟩
      exact hreplace i (by omega) _ rfl rfl h.nextVictim fun key hkey => .inr (hmiss i key hkey)
    | none =>
      have hvictim : (set.nextVictim + 1) &&& 15 < 16 := Nat.lt_of_le_of_lt Nat.and_le_right (by decide)
      exact hreplace set.nextVictim h.nextVictim _ rfl rfl hvictim fun key hkey => .inr (hmiss _ key hkey)

theorem findWithCache_spec {set : FindCache} (h : CacheValid blobs set) (target : LineColumnOffset) (data : Nat) :
    CacheValid blobs (findWithCache target blobs data set).1 ∧
      (Falls (·.lessOrEqual target) (decodeWindows (blobs data)) →
        (findWithCache target blobs data set).2 = lookup target (decodeWindows (blobs data))) := by
  unfold findWithCache
  cases hlocate : locateWindow (blobs data) target with
  | none =>
    refine ⟨h, fun hfalls => ?_⟩
    unfold lookup
    rw [lastWith_eq_none (locateWindow_none hfalls hlocate)]
    rfl
  | some syncIdx =>
    have hslot := h.slotFor data syncIdx
    dsimp only
    generalize set.slotFor data syncIdx = found at hslot ⊢
    rcases found with ⟨set', i⟩
    have hi : i < set.slots.length := by
      rw [h.slots]
      exact hslot.lt
    have hget : set.slots[i]? = some set.slots[i] := List.getElem?_eq_getElem hi
    have hgetD : set'.slots.getD i ⟨none, 0, [], .dangling⟩ = set.slots[i] := by
      rw [hslot.slots, List.getD_eq_getElem?_getD, hget]
      rfl
    have hseed : ReadUpTo (blobs data) syncIdx (set.slots[i].seed (blobs data) data syncIdx) :=
      readUpTo_seed fun hdata hidx _ => hslot.slot _ hget hdata hidx
    rcases hseed.decode target with ⟨hread, rest, hwindow, hrest⟩
    have hdata := seed_data (blobs data) set.slots[i] data syncIdx
    simp only [hgetD]
    constructor
    · constructor
      · exact hslot.keys
      · show (set'.slots.set i _).length = _
        rw [List.length_set, hslot.slots, h.slots]
      · exact hslot.nextVictim
      · intro j key slot hkey hslot'
        have hslot'' : (set'.slots.set i _)[j]? = some slot := hslot'
        by_cases hj : j = i
        · subst hj
          rw [List.getElem?_set_self (by rw [hslot.slots]; exact hi)] at hslot''
          rw [hslot.key] at hkey
          rw [← Option.some.inj hkey, ← Option.some.inj hslot'']
          refine ⟨hdata.1, fun data' hdata' => ⟨hdata.2, ?_⟩⟩
          rw [← Option.some.inj hdata']
          exact hread
        · rw [List.getElem?_set_ne (Ne.symm hj), hslot.slots] at hslot''
          rw [hslot.others j hj] at hkey
          exact h.cached j key slot hkey hslot''
    · intro hfalls
      rcases locateWindow_some hfalls hlocate with ⟨hhead, ⟨front, heq⟩, hback⟩
      rw [heq] at hfalls ⊢
      have hfallsWindow := hfalls.of_append_right.of_append_left
      have hrest := hrest hfallsWindow
      rw [hwindow] at hfallsWindow
      have hmem : head (blobs data) syncIdx ∈ ((set.slots[i].seed (blobs data) data syncIdx).decode target).decoded := by
        rcases hread with ⟨first, last, hdecoded, _⟩
        rw [hdecoded] at hwindow ⊢
        cases first with
        | nil => exact List.mem_singleton.2 (List.cons.inj hwindow).1
        | cons a first => exact List.mem_append_left _ ((List.cons.inj hwindow).1 ▸ List.mem_cons_self)
      rcases exists_lastWith (p := (·.lessOrEqual target)) hmem hhead with ⟨best, hbest⟩
      have hlast : lastWith (fun s : SourceMapState => s.lessOrEqual target) (window (blobs data) syncIdx) = some best := by
        rw [hwindow, lastWith_append_left hrest, hbest]
      rw [search_eq target hfallsWindow.of_append_left]
      unfold lookup
      rw [hbest, lastWith_append_right ((lastWith_append_left hback).trans hlast)]

end Cache

/-! ### The cursor -/

namespace Cursor

/-- What the cursor would read from here on -/
def upcoming (c : Cursor) : List SourceMapState :=
  remaining c.reader (c.peek.getD c.state) ++ windowsFrom c.map (c.syncIdx + 1)

/-- The cursor stands at a mapping, and behind it is the rest of the blob. -/
def At (c : Cursor) : Prop :=
  c.reader.count ≤ syncInterval ∧ ∃ front, decodeWindows c.map = front ++ c.state :: (c.peek.toList ++ c.upcoming)

def Valid (c : Cursor) : Prop := c.hasState = true → c.At

variable {c c' : Cursor} {target : LineColumnOffset}

theorem advanceOne_none (h : c.advanceOne = (c', none)) : c' = c ∧ c.upcoming = [] := by
  unfold advanceOne at h
  split_ifs at h with hdone hlast
  · refine ⟨(congrArg Prod.fst h).symm, ?_⟩
    unfold upcoming
    rw [remaining_done hdone, windowsFrom_ge hlast]
    rfl
  · cases congrArg Prod.snd h
  · cases congrArg Prod.snd h

/-- The next mapping is the first of those to come. -/
theorem advanceOne_some {next : SourceMapState} (h : c.advanceOne = (c', some next)) (hcount : c.reader.count ≤ syncInterval) :
    c'.map = c.map ∧ c'.state = c.state ∧ c'.peek = c.peek ∧ c'.hasState = c.hasState ∧
      c'.reader.count ≤ syncInterval ∧
      c.upcoming = next :: (remaining c'.reader next ++ windowsFrom c'.map (c'.syncIdx + 1)) := by
  unfold advanceOne at h
  unfold upcoming
  split_ifs at h with hdone hlast
  · cases congrArg Prod.snd h
  · have hc : _ = c' := congrArg Prod.fst h
    have hnext : head c.map (c.syncIdx + 1) = next := Option.some.inj (congrArg Prod.snd h)
    rw [← hc, ← hnext, remaining_done hdone, windowsFrom_lt (by omega), window_eq _ c.reader]
    exact ⟨rfl, rfl, rfl, rfl, seedWindow_count _ _, rfl⟩
  · have hc : _ = c' := congrArg Prod.fst h
    have hnext : _ = next := Option.some.inj (congrArg Prod.snd h)
    rw [← hc, ← hnext, remaining_next (by simpa using hdone) hcount]
    refine ⟨rfl, rfl, rfl, rfl, ?_, rfl⟩
    rw [WindowReader.next_count]
    exact hcount

theorem takePeek_none (h : c.takePeek target = none) :
    ∃ p, c.peek = some p ∧ p.lessOrEqual target = false := by
  unfold takePeek at h
  split at h
  · cases h
  · rename_i p hpeek
    split_ifs at h with hle
    exact ⟨p, hpeek, by simpa using hle⟩

theorem takePeek_some (h : c.takePeek target = some c') (hat : c.At) (hstate : c.state.lessOrEqual target = true) :
    c'.map = c.map ∧ c'.hasState = c.hasState ∧ c'.peek = none ∧ c'.state.lessOrEqual target = true ∧ c'.At := by
  rcases hat with ⟨hcount, front, heq⟩
  unfold takePeek at h
  split at h
  · rename_i hpeek
    rw [← Option.some.inj h]
    exact ⟨rfl, rfl, hpeek, hstate, hcount, front, heq⟩
  · rename_i p hpeek
    split_ifs at h with hle
    rw [← Option.some.inj h]
    refine ⟨rfl, rfl, rfl, hle, hcount, front ++ [c.state], ?_⟩
    rw [heq, hpeek]
    unfold upcoming
    rw [hpeek]
    simp

/-- The cursor goes forward to the last mapping that is not behind the target. -/
theorem forward_spec (target : LineColumnOffset) (c : Cursor)
    (hfalls : Falls (·.lessOrEqual target) (decodeWindows c.map)) (hat : c.At)
    (hstate : c.state.lessOrEqual target = true) :
    (c.forward target).map = c.map ∧ (c.forward target).hasState = c.hasState ∧ (c.forward target).At ∧
      lastWith (·.lessOrEqual target) (decodeWindows c.map) = some (c.forward target).state := by
  fun_induction forward target c with
  | case1 c hpeek =>
    rcases takePeek_none hpeek with ⟨p, hp, hback⟩
    refine ⟨rfl, rfl, hat, ?_⟩
    rcases hat with ⟨_, front, heq⟩
    rw [heq, hp] at hfalls ⊢
    have hrest := (hfalls.of_append_right.of_cons).false_of_head hback
    apply lastWith_cut
    · exact hstate
    · intro s hs
      rcases List.mem_cons.1 hs with rfl | hs
      · exact hback
      · exact hrest s hs
  | case2 c c₁ hpeek c₂ hadvance =>
    rcases takePeek_some hpeek hat hstate with ⟨hmap, hhas, hnone, hstate₁, hat₁⟩
    rcases advanceOne_none hadvance with ⟨rfl, hupcoming⟩
    refine ⟨hmap, hhas, hat₁, ?_⟩
    rcases hat₁ with ⟨_, front, heq⟩
    rw [← hmap, heq, hnone, hupcoming]
    apply lastWith_cut
    · exact hstate₁
    · simp
  | case3 c c₁ hpeek c₂ next hadvance hle ih =>
    rcases takePeek_some hpeek hat hstate with ⟨hmap, hhas, hnone, hstate₁, hcount₁, front, heq⟩
    rcases advanceOne_some hadvance hcount₁ with ⟨hmap₂, hstate₂, hpeek₂, hhas₂, hcount₂, hupcoming⟩
    have hat₂ : At {c₂ with state := next} := by
      refine ⟨hcount₂, front ++ [c₁.state], ?_⟩
      show decodeWindows c₂.map = _ ++ next :: (c₂.peek.toList ++ (remaining c₂.reader (c₂.peek.getD next) ++ _))
      rw [hmap₂, heq, hnone, hupcoming, hpeek₂, hnone]
      simp [hmap₂]
    have hmap' : c₂.map = c.map := hmap₂.trans hmap
    have h := ih (by rw [hmap']; exact hfalls) hat₂ hle
    have hlast := h.2.2.2
    refine ⟨h.1.trans hmap', h.2.1.trans (hhas₂.trans hhas), h.2.2.1, ?_⟩
    rw [← hmap']
    exact hlast
  | case4 c c₁ hpeek c₂ next hadvance hgt =>
    rcases takePeek_some hpeek hat hstate with ⟨hmap, hhas, hnone, hstate₁, hcount₁, front, heq⟩
    rcases advanceOne_some hadvance hcount₁ with ⟨hmap₂, hstate₂, hpeek₂, hhas₂, hcount₂, hupcoming⟩
    have heq₂ : decodeWindows c.map =
        front ++ c₂.state :: (next :: (remaining c₂.reader next ++ windowsFrom c₂.map (c₂.syncIdx + 1))) := by
      rw [← hmap, heq, hnone, hupcoming, hstate₂]
      rfl
    refine ⟨hmap₂.trans hmap, hhas₂.trans hhas, ⟨hcount₂, front, ?_⟩, ?_⟩
    · exact (congrArg decodeWindows (hmap₂.trans hmap)).trans heq₂
    · rw [heq₂] at hfalls ⊢
      have hback : next.lessOrEqual target = false := by simpa using hgt
      have hrest := (hfalls.of_append_right.of_cons).false_of_head hback
      apply lastWith_cut
      · show c₂.state.lessOrEqual target = true
        rw [hstate₂]
        exact hstate₁
      · intro s hs
        rcases List.mem_cons.1 hs with rfl | hs
        · exact hback
        · exact hrest s hs

theorem moveTo_spec (target : LineColumnOffset) (c : Cursor)
    (hfalls : Falls (·.lessOrEqual target) (decodeWindows c.map)) (hvalid : c.Valid) :
    (c.moveTo target).1.map = c.map ∧ (c.moveTo target).1.Valid ∧
      (c.moveTo target).2 = lookup target (decodeWindows c.map) := by
  unfold moveTo lookup
  by_cases hseek : c.hasState = false ∨ c.state.lessOrEqual target = false
  · rw [if_pos hseek]
    unfold reseek
    cases hlocate : locateWindow c.map target with
    | none =>
      rw [lastWith_eq_none (locateWindow_none hfalls hlocate)]
      exact ⟨rfl, fun h => absurd h (by simp), rfl⟩
    | some i =>
      rcases locateWindow_some hfalls hlocate with ⟨hhead, ⟨front, heq⟩, hback⟩
      let c' : Cursor :=
        { c with
          syncIdx := i, state := head c.map i, reader := (seedWindow c.map i c.reader).2, peek := none, hasState := true }
      have hat : c'.At := by
        refine ⟨seedWindow_count _ _, front, ?_⟩
        rw [show decodeWindows c'.map = _ from heq, window_eq i c.reader]
        rfl
      have h := forward_spec target c' hfalls hat hhead
      rw [show lastWith (·.lessOrEqual target) (decodeWindows c.map) = _ from h.2.2.2]
      refine ⟨h.1, fun _ => h.2.2.1, ?_⟩
      simp only [Option.bind_some, if_true]
      rfl
  · rw [if_neg hseek]
    rw [not_or, Bool.not_eq_false, Bool.not_eq_false] at hseek
    have h := forward_spec target c hfalls (hvalid hseek.1) hseek.2
    rw [h.2.2.2]
    refine ⟨h.1, fun _ => h.2.2.1, ?_⟩
    simp only [Option.bind_some, if_true]

end Cursor

/-! ### All of them -/

/-- A blob has no names. -/
def StoredIn (list : MappingList) (blob : List UInt8) : Prop :=
  (decodeWindows blob).map SourceMapState.toMapping = list.mappings.map Mapping.unnamed

theorem lookup_map (states : List SourceMapState) (target : LineColumnOffset) :
    lookup target states = lastMapping (states.map SourceMapState.toMapping) target := by
  unfold lookup lastMapping
  rw [lastWith_map]
  show _ = ((lastWith (·.lessOrEqual target) states).map _).filter _
  cases lastWith (fun s : SourceMapState => s.lessOrEqual target) states with
  | none => rfl
  | some best =>
    show (if best.generatedLine ≠ target.lines then none else some best.toMapping) =
      if decide (best.generatedLine = target.lines) = true then some best.toMapping else none
    by_cases hline : best.generatedLine = target.lines <;> simp [hline]

theorem lastMapping_unnamed (mappings : List Mapping) (target : LineColumnOffset) :
    lastMapping (mappings.map Mapping.unnamed) target = (lastMapping mappings target).map Mapping.unnamed := by
  unfold lastMapping
  rw [lastWith_map, Option.filter_map]
  rfl

theorem StoredIn.falls {list : MappingList} (h : StoredIn list blob) (hsorted : Sorted list.mappings)
    (target : LineColumnOffset) : Falls (·.lessOrEqual target) (decodeWindows blob) := by
  have hfalls : Falls (fun m : Mapping => m.generated.lessOrEqual target) (list.mappings.map Mapping.unnamed) :=
    List.pairwise_map.2 (hsorted.falls target)
  rw [← h] at hfalls
  exact List.pairwise_map.1 hfalls

theorem StoredIn.lookup_eq {list : MappingList} (h : StoredIn list blob) (target : LineColumnOffset) :
    lookup target (decodeWindows blob) = (lastMapping list.mappings target).map Mapping.unnamed := by
  rw [lookup_map, h, lastMapping_unnamed]

inductive CacheCall where
  | find (data : Nat) (target : LineColumnOffset)
  | invalidate (data : Nat)
  | invalidateAll

def FindCache.call (blobs : Nat → List UInt8) (set : FindCache) : CacheCall → FindCache
  | .find data target => (findWithCache target blobs data set).1
  | .invalidate data => set.invalidate data
  | .invalidateAll => set.invalidateAll

theorem CacheValid.call {blobs : Nat → List UInt8} {set : FindCache} (h : CacheValid blobs set) (call : CacheCall) :
    CacheValid blobs (set.call blobs call) := by
  cases call with
  | find data target => exact (findWithCache_spec h target data).1
  | invalidate data => exact h.clear (· == some data)
  | invalidateAll => exact h.clear fun _ => true

theorem cacheValid_run (blobs : Nat → List UInt8) (calls : List CacheCall) :
    CacheValid blobs (calls.foldl (FindCache.call blobs) .empty) := by
  induction calls using List.reverseRecOn with
  | nil => exact cacheValid_empty
  | append_singleton calls call ih =>
    rw [List.foldl_append]
    exact ih.call call

def Cursor.run (c : Cursor) (targets : List LineColumnOffset) : Cursor := targets.foldl (fun c t => (c.moveTo t).1) c

theorem Cursor.run_valid (hfalls : ∀ target, Falls (·.lessOrEqual target) (decodeWindows blob))
    (targets : List LineColumnOffset) : ((init blob).run targets).map = blob ∧ ((init blob).run targets).Valid := by
  induction targets using List.reverseRecOn with
  | nil => exact ⟨rfl, fun h => absurd h Bool.false_ne_true⟩
  | append_singleton targets target ih =>
    have hfalls' : Falls (·.lessOrEqual target) (decodeWindows ((init blob).run targets).map) := by
      rw [ih.1]
      exact hfalls target
    have h := moveTo_spec target _ hfalls' ih.2
    unfold run
    rw [List.foldl_append]
    exact ⟨h.1.trans ih.1, h.2.1⟩

/-- Whatever was looked up before, every lookup finds what the list finds, up to its name. -/
theorem lookups_agree (blobs : Nat → List UInt8) (data : Nat) (list : MappingList) (hsorted : Sorted list.mappings)
    (hstored : StoredIn list (blobs data)) (history : List CacheCall) (targets : List LineColumnOffset)
    (target : LineColumnOffset) :
    let found := (list.find target).map Mapping.unnamed
    list.find target = (lastMapping list.mappings target).map (fun m => if list.withNames then m else m.unnamed) ∧
      find (blobs data) target = found ∧
      (findWithCache target blobs data (history.foldl (FindCache.call blobs) .empty)).2 = found ∧
      (((Cursor.init (blobs data)).run targets).moveTo target).2 = found ∧
      (list.withNames = false → found = list.find target) := by
  have hfalls := hstored.falls hsorted
  have hlist := list.find_eq target hsorted
  have hunnamed : (list.find target).map Mapping.unnamed = (lastMapping list.mappings target).map Mapping.unnamed := by
    rw [hlist, Option.map_map]
    congr 1
    funext m
    show Mapping.unnamed (if _ then _ else _) = _
    split <;> rfl
  have hlookup : lookup target (decodeWindows (blobs data)) = (list.find target).map Mapping.unnamed := by
    rw [hstored.lookup_eq, hunnamed]
  have hcursor := Cursor.run_valid hfalls targets
  refine ⟨hlist, ?_, ?_, ?_, ?_⟩
  · rw [find_eq (hfalls target), hlookup]
  · rw [(findWithCache_spec (cacheValid_run blobs history) target data).2 (hfalls target), hlookup]
  · rw [(Cursor.moveTo_spec target _ (by rw [hcursor.1]; exact hfalls target) hcursor.2).2.2, hcursor.1, hlookup]
  · intro hnames
    rw [hunnamed, hlist, hnames]
    rfl

/-- Three mappings, two of them in one place -/
def threeMappings : MappingList :=
  ⟨true, [⟨⟨0, 4⟩, ⟨1, 2⟩, 0, 7⟩, ⟨⟨2, 0⟩, ⟨3, 0⟩, 0, -1⟩, ⟨⟨2, 0⟩, ⟨4, 1⟩, 1, 8⟩]⟩

def threeMappingsBlob : List UInt8 :=
  let ops : List Call :=
    [.mapping ⟨0, 4, 0, 1, 2⟩, .lineSeparator, .lineSeparator, .mapping ⟨0, 0, 0, 3, 0⟩, .mapping ⟨0, 0, 1, 4, 1⟩]
  generateChunk ((ops.foldl Builder.call .init).finalize.getD []) 3 3

theorem sorted_threeMappings : Sorted threeMappings.mappings := by
  unfold Sorted
  decide

theorem storedIn_threeMappings : StoredIn threeMappings threeMappingsBlob := by
  unfold StoredIn
  decide +kernel

theorem lookups_agree_threeMappings :
    find threeMappingsBlob ⟨2, 3⟩ = some ⟨⟨2, 0⟩, ⟨4, 1⟩, 1, -1⟩ ∧
      (findWithCache ⟨2, 3⟩ (fun _ => threeMappingsBlob) 5
        ([.find 5 ⟨0, 0⟩, .find 5 ⟨0, 9⟩, .invalidate 5, .find 6 ⟨2, 0⟩].foldl
          (FindCache.call fun _ => threeMappingsBlob) .empty)).2 = some ⟨⟨2, 0⟩, ⟨4, 1⟩, 1, -1⟩ ∧
      (((Cursor.init threeMappingsBlob).run [⟨7, 0⟩, ⟨0, 5⟩]).moveTo ⟨2, 3⟩).2 = some ⟨⟨2, 0⟩, ⟨4, 1⟩, 1, -1⟩ := by
  have h := lookups_agree (fun _ => threeMappingsBlob) 5 threeMappings sorted_threeMappings storedIn_threeMappings
    [.find 5 ⟨0, 0⟩, .find 5 ⟨0, 9⟩, .invalidate 5, .find 6 ⟨2, 0⟩] [⟨7, 0⟩, ⟨0, 5⟩] ⟨2, 3⟩
  have hfound : (threeMappings.find ⟨2, 3⟩).map Mapping.unnamed = some ⟨⟨2, 0⟩, ⟨4, 1⟩, 1, -1⟩ := by
    rw [h.1]
    rfl
  exact ⟨h.2.1.trans hfound, h.2.2.1.trans hfound, h.2.2.2.1.trans hfound⟩

/-- The list knows a name that the blob does not. -/
theorem lookups_agree_name :
    Sorted threeMappings.mappings ∧ StoredIn threeMappings threeMappingsBlob ∧
      threeMappings.find ⟨2, 3⟩ = some ⟨⟨2, 0⟩, ⟨4, 1⟩, 1, 8⟩ ∧
      find threeMappingsBlob ⟨2, 3⟩ = some ⟨⟨2, 0⟩, ⟨4, 1⟩, 1, -1⟩ := by
  refine ⟨sorted_threeMappings, storedIn_threeMappings, ?_, ?_⟩
  · rw [threeMappings.find_eq _ sorted_threeMappings]
    rfl
  · rw [find_eq (storedIn_threeMappings.falls sorted_threeMappings _), storedIn_threeMappings.lookup_eq]
    rfl

/-- What was appended is found, whatever was looked up before. -/
theorem lookups_appended {ops : List Call} (hfits : Fits ops) (hlines : separators ops < 2147483648)
    (hstream : (ops.foldl Builder.call .init).winStream.length < UInt32.size)
    (hsorted : Sorted ((appended 0 ops).map SourceMapState.toMapping)) (count inputLineCount : Nat) :
    ∃ blob, (ops.foldl Builder.call .init).finalize = some blob ∧
      ∀ (blobs : Nat → List UInt8) data, blobs data = generateChunk blob count inputLineCount →
        ∀ (history : List CacheCall) targets target,
          let found := lookup target (appended 0 ops)
          find (blobs data) target = found ∧
            (findWithCache target blobs data (history.foldl (FindCache.call blobs) .empty)).2 = found ∧
            (((Cursor.init (blobs data)).run targets).moveTo target).2 = found := by
  obtain ⟨blob, hblob, hdecode⟩ := decodeWindows_finalize ops hfits hlines hstream count inputLineCount
  refine ⟨blob, hblob, fun blobs data hdata history targets target => ?_⟩
  rw [← hdata] at hdecode
  have hfalls : ∀ target, Falls (·.lessOrEqual target) (decodeWindows (blobs data)) := fun target =>
    hdecode ▸ List.pairwise_map.1 (hsorted.falls target)
  have hcursor := Cursor.run_valid hfalls targets
  have hcached := findWithCache_spec (cacheValid_run blobs history) target data
  rw [← hdecode]
  refine ⟨find_eq (hfalls target), hcached.2 (hfalls target), ?_⟩
  rw [(Cursor.moveTo_spec target _ (by rw [hcursor.1]; exact hfalls target) hcursor.2).2.2, hcursor.1]

/-- Mappings over three lines -/
def threeLines : List Call :=
  [.mapping ⟨0, 0, 0, 0, 0⟩, .mapping ⟨0, 7, 3, 0, 9⟩, .lineSeparator, .lineSeparator, .mapping ⟨0, 0, 1, 4, 1⟩,
    .mapping ⟨0, 5, 1, 4, 8⟩]

theorem lookups_appended_threeLines :
    ∃ blob, (threeLines.foldl Builder.call .init).finalize = some blob ∧
      let blobs := fun _ => generateChunk blob 4 3
      let found := some ⟨⟨2, 0⟩, ⟨4, 1⟩, 1, -1⟩
      find (blobs 5) ⟨2, 3⟩ = found ∧
        (findWithCache ⟨2, 3⟩ blobs 5 ([.find 5 ⟨0, 9⟩, .find 6 ⟨2, 6⟩, .invalidate 5, .find 5 ⟨2, 0⟩].foldl
          (FindCache.call blobs) .empty)).2 = found ∧
        (((Cursor.init (blobs 5)).run [⟨7, 0⟩, ⟨0, 5⟩]).moveTo ⟨2, 3⟩).2 = found := by
  have hfits : Fits threeLines := by
    intro s hs
    simp only [threeLines, List.mem_cons, reduceCtorEq, Call.mapping.injEq, List.not_mem_nil, or_false, false_or] at hs
    rcases hs with rfl | rfl | rfl | rfl <;> constructor <;> (try unfold Int32Range) <;> decide
  obtain ⟨blob, hblob, h⟩ := lookups_appended hfits (by decide) (by decide) (by unfold Sorted; decide) 4 3
  exact ⟨blob, hblob, h (fun _ => _) 5 rfl [.find 5 ⟨0, 9⟩, .find 6 ⟨2, 6⟩, .invalidate 5, .find 5 ⟨2, 0⟩]
    [⟨7, 0⟩, ⟨0, 5⟩] ⟨2, 3⟩⟩

end Internal

end Funbun.SourceMap
