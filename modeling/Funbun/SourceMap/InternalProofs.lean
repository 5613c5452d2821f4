import Funbun.SourceMap.Parse
import Funbun.SourceMap.InternalWindow

/-! The windows of a blob are the mappings that were appended.

A window is read from its entry in the table and its bytes in the stream. What holds of the builder between two
calls is `Stored`: the windows so far, written one after another, and the mappings that wait. -/
namespace Funbun.SourceMap.Internal
open Library

/-! ### Numbers that fit -/

attribute [ext] SourceMapState

/-- Lines are counted from 0. -/
structure Good (s : SourceMapState) : Prop where
  generatedLine : 0 ≤ s.generatedLine ∧ s.generatedLine < 2147483648
  generatedColumn : Int32Range s.generatedColumn
  sourceIndex : Int32Range s.sourceIndex
  originalLine : Int32Range s.originalLine
  originalColumn : Int32Range s.originalColumn

variable {s prev current first : SourceMapState} {rest : List SourceMapState}

theorem Good.line (h : Good s) : Int32Range s.generatedLine := by
  have := h.generatedLine
  unfold Int32Range
  omega

/-- A difference that wraps around wraps back. -/
theorem i32_add_i32_sub {a b : Int} (ha : Int32Range a) : i32 (b + i32 (a - b)) = a := by
  rw [add_comm, i32_add, sub_add_cancel]
  exact i32_of_range ha

theorem i32_sub_eq_zero {a b : Int} (ha : Int32Range a) (hb : Int32Range b) (h : i32 (a - b) = 0) : b = a := by
  have hback := i32_add_i32_sub (b := b) ha
  rw [h, add_zero, i32_of_range hb] at hback
  exact hback

theorem inRange_delta (h : Good current) : (delta prev current).InRange where
  genLine := i32_range _
  genCol := by
    unfold delta
    simp only
    split
    · exact h.generatedColumn
    · exact i32_range _
  origLine := i32_range _
  origCol := i32_range _
  srcIdx := i32_range _

/-- The difference leads to the mapping it was taken for. -/
theorem apply_delta (hprev : Good prev) (hcurrent : Good current) :
    (delta prev current).apply prev = current := by
  apply SourceMapState.ext
  · show (if i32 _ ≠ 0 then i32 (_ + i32 _) else _) = _
    split
    · exact i32_add_i32_sub hcurrent.line
    · rename_i h
      exact i32_sub_eq_zero hcurrent.line hprev.line (not_not.1 h)
  · show (if i32 _ ≠ 0 then (if i32 _ ≠ 0 then _ else _) else i32 (_ + if i32 _ ≠ 0 then _ else _)) = _
    split
    · rfl
    · exact i32_add_i32_sub hcurrent.generatedColumn
  · show (if i32 _ = 0 then _ else i32 (_ + i32 _)) = _
    split
    · rename_i h
      exact i32_sub_eq_zero hcurrent.sourceIndex hprev.sourceIndex h
    · exact i32_add_i32_sub hcurrent.sourceIndex
  · exact i32_add_i32_sub hcurrent.originalLine
  · exact i32_add_i32_sub hcurrent.originalColumn

/-! ### A window -/

/-- The mappings behind a state, difference by difference -/
def walk : SourceMapState → List Delta → List SourceMapState
  | _, [] => []
  | state, d :: ds => d.apply state :: walk (d.apply state) ds

theorem deltas_cons (first second : SourceMapState) (rest : List SourceMapState) :
    deltas (first :: second :: rest) = delta first second :: deltas (second :: rest) := rfl

theorem walk_deltas (first : SourceMapState) (rest : List SourceMapState) (h : ∀ s ∈ first :: rest, Good s) :
    walk first (deltas (first :: rest)) = rest := by
  induction rest generalizing first with
  | nil => rfl
  | cons second rest ih =>
    have happly : (delta first second).apply first = second := apply_delta (h _ (by simp)) (h _ (by simp))
    rw [deltas_cons, walk, happly, ih second fun s hs => h s (List.mem_cons_of_mem _ hs)]

theorem length_deltas (first : SourceMapState) (rest : List SourceMapState) :
    (deltas (first :: rest)).length = rest.length := by
  simp [deltas]

variable {window : List SourceMapState} {windows : List (List SourceMapState)} {i : Nat} {b : Builder} {ops : List Call}

theorem inRange_deltas (h : ∀ s ∈ window, Good s) : ∀ d ∈ deltas window, d.InRange := by
  induction window with
  | nil => simp [deltas]
  | cons first rest ih =>
    cases rest with
    | nil => simp [deltas]
    | cons second rest =>
      intro d hd
      rw [deltas_cons, List.mem_cons] at hd
      rcases hd with rfl | hd
      · exact inRange_delta (h _ (by simp))
      · exact ih (fun s hs => h s (List.mem_cons_of_mem _ hs)) d hd

/-- The reader goes on difference by difference, to the last one. -/
theorem readWindow_eq {bytes : List UInt8} {base : Nat} {ds : List Delta} (hrange : ∀ d ∈ ds, d.InRange)
    (hlength : ds.length < 255) : ∀ (n i : Nat) (r : WindowReader) (state : SourceMapState),
      Reading bytes base ds i r → ds.length ≤ i + n → readWindow n r state = walk state (ds.drop i)
  | 0, i, r, state, _, hn => by
    rw [List.drop_eq_nil_of_le (by omega)]
    rfl
  | n + 1, i, r, state, h, hn => by
    have hdone : r.done = decide (ds.length ≤ i) := by
      unfold WindowReader.done
      rw [h.count, h.deltaIdx]
      simp
    rw [readWindow, hdone]
    by_cases hi : ds.length ≤ i
    · rw [if_pos (by simpa using hi), List.drop_eq_nil_of_le hi]
      rfl
    · have hd : ds[i]? = some ds[i] := List.getElem?_eq_getElem (by omega)
      have hstep := h.next hd (hrange _ (List.getElem_mem _)) hlength state
      rw [if_neg (by simpa using hi), hstep.2, drop_eq hd,
        readWindow_eq hrange hlength n (i + 1) _ _ hstep.1 (by omega)]
      rfl

/-! ### The windows in the stream -/

/-- Where a window starts -/
def windowOffset (windows : List (List SourceMapState)) (i : Nat) : Nat := ((windows.take i).flatMap windowBytes).length

def entryOf (offset : Nat) (s : SourceMapState) : SyncEntry :=
  ⟨s.generatedLine, s.generatedColumn, offset % UInt32.size, s.originalLine, s.originalColumn, s.sourceIndex⟩

/-- The windows that were written are in the stream, and each has its entry. -/
structure Flushed (b : Builder) (windows : List (List SourceMapState)) : Prop where
  stream : b.winStream = windows.flatMap windowBytes
  length : b.syncEntries.length = windows.length
  entries : ∀ i first rest, windows[i]? = some (first :: rest) →
    b.syncEntries[i]? = some (entryOf (windowOffset windows i) first)
  filled : ∀ window ∈ windows, 0 < window.length ∧ window.length ≤ syncInterval

theorem flushed_init : Flushed .init [] where
  stream := rfl
  length := rfl
  entries := by simp
  filled := by simp

theorem windowOffset_append (h : i ≤ windows.length)
    (window : List SourceMapState) : windowOffset (windows ++ [window]) i = windowOffset windows i := by
  unfold windowOffset
  rw [List.take_append_of_le_length h]

theorem Flushed.flushWindow (h : Flushed b windows) (hpending : b.pending = first :: rest)
    (hlength : b.pending.length ≤ syncInterval) : Flushed b.flushWindow (windows ++ [b.pending]) := by
  have heq : b.flushWindow =
      { b with
        syncEntries := b.syncEntries ++ [entryOf b.winStream.length first]
        winStream := b.winStream ++ windowBytes b.pending
        pending := [] } := by
    unfold Builder.flushWindow
    rw [hpending]
    rfl
  rw [heq]
  constructor
  · show b.winStream ++ windowBytes b.pending = _
    rw [h.stream, List.flatMap_append, List.flatMap_singleton]
  · simp [h.length]
  · intro i first' rest' hi
    show (b.syncEntries ++ [entryOf b.winStream.length first])[i]? = _
    rcases Nat.lt_trichotomy i windows.length with hlt | heq | hgt
    · rw [List.getElem?_append_left hlt] at hi
      rw [List.getElem?_append_left (by rw [h.length]; exact hlt), windowOffset_append (Nat.le_of_lt hlt)]
      exact h.entries i first' rest' hi
    · rw [List.getElem?_append_right (Nat.le_of_eq heq.symm), heq, Nat.sub_self] at hi
      have hfirst : first = first' := by
        rw [hpending] at hi
        simpa using congrArg (·.bind List.head?) hi
      rw [List.getElem?_append_right (by rw [h.length]; exact Nat.le_of_eq heq.symm), h.length, heq, Nat.sub_self,
        windowOffset_append (le_refl windows.length), windowOffset, List.take_length, ← h.stream, hfirst]
      rfl
    · rw [List.getElem?_eq_none (by rw [List.length_append, List.length_singleton]; omega)] at hi
      exact absurd hi (by simp)
  · intro window hwindow
    rcases List.mem_append.1 hwindow with hwindow | hwindow
    · exact h.filled window hwindow
    · rw [List.mem_singleton.1 hwindow]
      exact ⟨by simp [hpending], hlength⟩

/-! ### The table -/

theorem ofI32Bytes_i32Bytes {n : Int} (h : Int32Range n) : ofI32Bytes (i32Bytes n) = n := by
  have hsize : (UInt32.size : Int) = 4294967296 := rfl
  have hnonneg : 0 ≤ n % UInt32.size := Int.emod_nonneg n (by decide)
  have hlt : n % UInt32.size < UInt32.size := Int.emod_lt_of_pos n (by decide)
  have hread : ofLeBytes (leBytes 4 (n % UInt32.size).toNat) = (n % UInt32.size).toNat := by
    apply ofLeBytes_leBytes
    show _ < 4294967296
    omega
  unfold ofI32Bytes i32Bytes
  rw [hread, Int.toNat_of_nonneg hnonneg]
  show Int.bmod (n % UInt32.size) UInt32.size = n
  rw [Int.emod_bmod]
  exact i32_of_range h

theorem readI32_at {blob : List UInt8} {pos : Nat} {n : Int} (h : Int32Range n) (hat : At blob (i32Bytes n) pos) :
    readI32 blob pos = n := by
  have htake := hat.take
  rw [show (i32Bytes n).length = 4 from length_leBytes 4 _] at htake
  unfold readI32
  rw [htake, ofI32Bytes_i32Bytes h]

theorem length_entry (e : SyncEntry) : e.bytes.length = 24 := by
  simp [SyncEntry.bytes, i32Bytes]

theorem syncEntry_at {blob : List UInt8} {index offset : Nat} (h : Good s)
    (hat : At blob (entryOf offset s).bytes (headerSize + index * 24)) : syncEntry blob index = entryOf offset s := by
  unfold SyncEntry.bytes at hat
  simp only [List.append_assoc] at hat
  have h₁ := hat.right
  have h₂ := h₁.right
  have h₃ := h₂.right
  have h₄ := h₃.right
  have h₅ := h₄.right
  simp only [i32Bytes, length_leBytes, add_assoc, Nat.reduceAdd] at h₁ h₂ h₃ h₄ h₅
  unfold syncEntry
  simp only [add_assoc]
  have hoffset : (entryOf offset s).byteOffset < 256 ^ 4 := Nat.mod_lt offset (by decide)
  rw [readI32_at h.line hat.left, readI32_at h.generatedColumn h₁.left,
    readNumber_at h₂.left hoffset, readI32_at h.originalLine h₃.left, readI32_at h.originalColumn h₄.left,
    readI32_at h.sourceIndex h₅]
  rfl

/-! ### The blob -/

theorem length_lineStream (k : Nat) (ds : List Delta) : (lineStream k ds).length ≤ 6 * ds.length := by
  induction ds generalizing k with
  | nil => exact le_rfl
  | cons d ds ih =>
    have hrest := ih (k + 1)
    have hone : (writeVarint d.genLine).length ≤ 5 := length_varintBytes 5 _
    rw [lineStream, List.length_append, List.length_cons]
    split
    · rw [List.length_cons]
      omega
    · rw [List.length_nil]
      omega

/-- A window is its header, its lanes and the masks of two of them. -/
theorem length_lanes (h : (deltas window).length ≤ 63) :
    32 ≤ (windowBytes window).length ∧ (windowBytes window).length ≤ 41 + (numbers genColOf (deltas window)).length +
      (numbers origLineOf (deltas window)).length + (numbers origColOf (deltas window)).length +
        (lineStream 0 (deltas window)).length + (numbers srcIdxOf (deltas window)).length := by
  have hw := written_lanes window (by omega)
  have h₁ : (lanes window).genCol = numbers genColOf (deltas window) := hw.genCol
  have h₂ : (lanes window).origLine = numbers origLineOf (deltas window) := hw.origLine
  have h₃ : (lanes window).origCol = numbers origColOf (deltas window) := hw.origCol
  have h₄ : (lanes window).genLine = lineStream 0 (deltas window) := hw.genLine
  have h₅ : (lanes window).srcIdx = numbers srcIdxOf (deltas window) := hw.srcIdx
  rw [← h₁, ← h₂, ← h₃, ← h₄, ← h₅]
  have hline : (lanes window).genLineStream.length ≤ (lanes window).genLine.length + 1 := by
    unfold Lanes.genLineStream
    split <;> simp
  have hm : (lanes window).srcIdxMask.length = 8 := hw.srcIdxMask.length
  have hsource : (lanes window).srcIdxStream.length ≤ 8 + (lanes window).srcIdx.length := by
    unfold Lanes.srcIdxStream
    split
    · rw [List.length_append, hm]
    · simp
  have hm₁ : (lanes window).genLineMask.length = 8 := hw.genLineMask.length
  have hm₂ : (lanes window).origLineEqMask.length = 8 := hw.origLineEqMask.length
  have hm₃ : (lanes window).origColEqMask.length = 8 := hw.origColEqMask.length
  have hheader : ((lanes window).header window.length).length = 32 := by
    simp [Lanes.header, hm₁, hm₂, hm₃]
  unfold windowBytes
  simp only [List.length_append, hheader]
  omega

theorem length_windowBytes (h : (deltas window).length ≤ 63) :
    32 ≤ (windowBytes window).length ∧ (windowBytes window).length ≤ 4096 := by
  have hlanes := length_lanes h
  have hcolumn := length_numbers genColOf (deltas window)
  have horigLine := length_numbers origLineOf (deltas window)
  have horigColumn := length_numbers origColOf (deltas window)
  have hline := length_lineStream 0 (deltas window)
  have hsource := length_numbers srcIdxOf (deltas window)
  omega

/-- What a chunk holds -/
structure Holds (chunk : List UInt8) (b : Builder) : Prop where
  syncCount : syncCount chunk = b.syncEntries.length
  entries : At chunk (b.syncEntries.flatMap SyncEntry.bytes) headerSize
  stream : stream chunk = b.winStream ++ [0]

theorem length_table (entries : List SyncEntry) : (entries.flatMap SyncEntry.bytes).length = entries.length * 24 := by
  induction entries with
  | nil => rfl
  | cons e entries ih => rw [List.flatMap_cons, List.length_append, ih, length_entry, List.length_cons, Nat.succ_mul, add_comm]

theorem finalize_eq (h : headerSize + b.flushWindow.syncEntries.length * 24 < UInt32.size) :
    b.finalize = some (List.replicate 24 0 ++ leBytes 4 b.flushWindow.syncEntries.length ++
      leBytes 4 (headerSize + b.flushWindow.syncEntries.length * 24) ++
      b.flushWindow.syncEntries.flatMap SyncEntry.bytes ++ b.flushWindow.winStream ++ [0]) := by
  unfold Builder.finalize
  rw [if_pos ⟨by omega, h⟩]

theorem holds_generateChunk (hentries : headerSize + b.syncEntries.length * 24 < UInt32.size)
    (hstream : b.winStream.length < UInt32.size + 4096) (count inputLineCount : Nat) :
    Holds (generateChunk (List.replicate 24 0 ++ leBytes 4 b.syncEntries.length ++
      leBytes 4 (headerSize + b.syncEntries.length * 24) ++ b.syncEntries.flatMap SyncEntry.bytes ++ b.winStream ++ [0])
      count inputLineCount) b := by
  have hsize : UInt32.size = 4294967296 := rfl
  have hheader : headerSize = 32 := rfl
  have hlength : (List.replicate 24 0 ++ leBytes 4 b.syncEntries.length ++
      leBytes 4 (headerSize + b.syncEntries.length * 24) ++ b.syncEntries.flatMap SyncEntry.bytes ++ b.winStream ++
      [0]).length = 33 + b.syncEntries.length * 24 + b.winStream.length := by
    simp only [List.length_append, List.length_replicate, length_leBytes, length_table, List.length_singleton]
    omega
  unfold generateChunk
  rw [hlength]
  simp only [List.append_assoc]
  rw [List.drop_left' (by rw [List.length_replicate])]
  generalize hchunk : leBytes 8 (33 + b.syncEntries.length * 24 + b.winStream.length) ++
    (leBytes 8 count ++ (leBytes 8 inputLineCount ++ (leBytes 4 b.syncEntries.length ++
      (leBytes 4 (headerSize + b.syncEntries.length * 24) ++
        (b.syncEntries.flatMap SyncEntry.bytes ++ (b.winStream ++ [0])))))) = chunk
  have hat : At chunk (leBytes 8 (33 + b.syncEntries.length * 24 + b.winStream.length) ++
    (leBytes 8 count ++ (leBytes 8 inputLineCount ++ (leBytes 4 b.syncEntries.length ++
      (leBytes 4 (headerSize + b.syncEntries.length * 24) ++
        (b.syncEntries.flatMap SyncEntry.bytes ++ (b.winStream ++ [0]))))))) 0 := ⟨[], by rw [hchunk]; simp⟩
  have h₁ := hat.right
  have h₂ := h₁.right
  have h₃ := h₂.right
  have h₄ := h₃.right
  have h₅ := h₄.right
  have h₆ := h₅.right
  simp only [length_leBytes, length_table, Nat.reduceAdd, Nat.zero_add] at h₁ h₂ h₃ h₄ h₅ h₆
  have htotal : totalLen chunk = 33 + b.syncEntries.length * 24 + b.winStream.length :=
    readNumber_at hat.left (by omega)
  have hoffset : streamOffset chunk = headerSize + b.syncEntries.length * 24 := readNumber_at h₄.left (by omega)
  refine ⟨readNumber_at h₃.left (by omega), h₅.left, ?_⟩
  have htake := h₆.take
  rw [List.length_append, List.length_singleton] at htake
  unfold stream
  rw [htotal, hoffset, hheader,
    show 33 + b.syncEntries.length * 24 + b.winStream.length - (32 + b.syncEntries.length * 24) = b.winStream.length + 1
      by omega]
  exact htake

/-! ### All windows -/

theorem windowBytes_at (h : windows[i]? = some window) (rest : List UInt8) :
    At (windows.flatMap windowBytes ++ rest) (windowBytes window) (windowOffset windows i) := by
  have hsplit : windows = windows.take i ++ window :: windows.drop (i + 1) := by
    rcases List.getElem?_eq_some_iff.1 h with ⟨hi, rfl⟩
    rw [← List.drop_eq_getElem_cons hi, List.take_append_drop]
  have hbytes : windows.flatMap windowBytes ++ rest =
      (windows.take i).flatMap windowBytes ++ windowBytes window ++
        ((windows.drop (i + 1)).flatMap windowBytes ++ rest) := by
    conv_lhs => rw [hsplit]
    simp
  rw [hbytes]
  exact at_append _ _ _

/-- A window of the blob -/
theorem readWindow_seed {chunk : List UInt8} (hholds : Holds chunk b) (h : Flushed b windows)
    (hi : windows[i]? = some (first :: rest)) (hgood : ∀ s ∈ first :: rest, Good s)
    (hoffset : windowOffset windows i < UInt32.size) (r : WindowReader) :
    (seedWindow chunk i r).1 = first ∧
      readWindow syncInterval (seedWindow chunk i r).2 (seedWindow chunk i r).1 = rest := by
  have hfilled := h.filled _ (List.mem_of_getElem? hi)
  have hlength : (first :: rest).length ≤ 64 := hfilled.2
  rw [List.length_cons] at hlength
  have hentry : syncEntry chunk i = entryOf (windowOffset windows i) first :=
    syncEntry_at (hgood _ List.mem_cons_self) (At.row length_entry hholds.entries (h.entries i first rest hi))
  have hdeltas := length_deltas first rest
  have hstart : (entryOf (windowOffset windows i) first).byteOffset = windowOffset windows i := Nat.mod_eq_of_lt hoffset
  have hstate : (entryOf (windowOffset windows i) first).toState = first := rfl
  have hat : At (stream chunk) (windowBytes (first :: rest)) (windowOffset windows i) := by
    rw [hholds.stream, h.stream]
    exact windowBytes_at hi [0]
  have hrange := inRange_deltas hgood
  have hreading := reading_parse (by rw [hdeltas, List.length_cons]) hfilled.2 hrange hat r
  have hread := readWindow_eq hrange (by omega) syncInterval 0 _ first hreading (by
    show _ ≤ 0 + 64
    omega)
  unfold seedWindow
  simp only [hentry, hstart, hstate, hread, List.drop_zero, walk_deltas first rest hgood, and_self]

theorem flatMap_range {α : Type} {f : Nat → List α} {lists : List (List α)}
    (h : ∀ i list, lists[i]? = some list → f i = list) : (List.range lists.length).flatMap f = lists.flatten := by
  induction lists using List.reverseRecOn with
  | nil => rfl
  | append_singleton lists list ih =>
    have hlast : f lists.length = list := h _ _ (by simp)
    have hinit : ∀ i list, lists[i]? = some list → f i = list := by
      intro i list' hi
      apply h
      rw [List.getElem?_append_left (List.getElem?_eq_some_iff.1 hi).1]
      exact hi
    rw [List.length_append, List.length_singleton, List.range_succ, List.flatMap_append, ih hinit,
      List.flatMap_singleton, hlast, List.flatten_append]
    simp

/-- The blob's windows are those that were written. -/
theorem decodeWindows_eq {chunk : List UInt8}
    (hholds : Holds chunk b) (h : Flushed b windows) (hgood : ∀ s ∈ windows.flatten, Good s)
    (hoffset : ∀ i < windows.length, windowOffset windows i < UInt32.size) : decodeWindows chunk = windows.flatten := by
  unfold decodeWindows
  rw [hholds.syncCount, h.length]
  apply flatMap_range
  intro i window hi
  cases window with
  | nil =>
    have := (h.filled _ (List.mem_of_getElem? hi)).1
    simp at this
  | cons first rest =>
    have hlt := (List.getElem?_eq_some_iff.1 hi).1
    have hwindow := readWindow_seed hholds h hi
      (fun s hs => hgood s (List.mem_flatten.2 ⟨_, List.mem_of_getElem? hi, hs⟩)) (hoffset i hlt) .dangling
    exact congrArg₂ List.cons hwindow.1 hwindow.2

/-! ### Runs of the builder -/

inductive Call where
  | lineSeparator
  | mapping (current : SourceMapState)

def Builder.call (b : Builder) : Call → Builder
  | .lineSeparator => b.appendLineSeparator
  | .mapping current => b.appendMapping current

/-- The mappings that a sequence of calls stands for: each on the line that the separators before it lead to -/
def appended (line : Int) : List Call → List SourceMapState
  | [] => []
  | .lineSeparator :: ops => appended (line + 1) ops
  | .mapping current :: ops => {current with generatedLine := line} :: appended line ops

def separators : List Call → Nat
  | [] => 0
  | .lineSeparator :: ops => separators ops + 1
  | .mapping _ :: ops => separators ops

/-- The numbers of the mappings are `i32`s. -/
def Fits (ops : List Call) : Prop :=
  ∀ s, .mapping s ∈ ops → Good {s with generatedLine := 0}

theorem separators_append (a b : List Call) : separators (a ++ b) = separators a + separators b := by
  induction a with
  | nil => simp [separators]
  | cons op ops ih =>
    cases op <;> simp [separators, ih]
    omega

theorem appended_append (line : Int) (a b : List Call) :
    appended line (a ++ b) = appended line a ++ appended (line + separators a) b := by
  induction a generalizing line with
  | nil => simp [appended, separators]
  | cons op ops ih =>
    cases op with
    | lineSeparator =>
      have hline : line + 1 + (separators ops : Int) = line + (separators ops + 1 : Nat) := by omega
      simp only [List.cons_append, appended, separators, ih, hline]
    | mapping s => simp only [List.cons_append, appended, separators, ih]

theorem good_appended (hfits : Fits ops) {line : Int} (hline : 0 ≤ line)
    (hlines : line + separators ops < 2147483648) : ∀ s ∈ appended line ops, Good s := by
  induction ops generalizing line with
  | nil => simp [appended]
  | cons op ops ih =>
    have hrest : Fits ops := fun s hs => hfits s (List.mem_cons_of_mem _ hs)
    cases op with
    | lineSeparator =>
      rw [separators] at hlines
      exact ih hrest (by omega) (by omega)
    | mapping current =>
      have hcurrent := hfits current List.mem_cons_self
      rw [separators] at hlines
      intro s hs
      rcases List.mem_cons.1 hs with rfl | hs
      · exact ⟨⟨hline, (by omega : line < 2147483648)⟩, hcurrent.generatedColumn, hcurrent.sourceIndex, hcurrent.originalLine,
          hcurrent.originalColumn⟩
      · exact ih hrest hline hlines s hs

/-- Between two calls -/
structure Stored (b : Builder) (windows : List (List SourceMapState)) (ops : List Call) : Prop where
  flushed : Flushed b windows
  states : windows.flatten ++ b.pending = appended 0 ops
  pending : b.pending.length < syncInterval
  generatedLine : 0 ≤ b.generatedLine
  pendingDelta : 0 ≤ b.pendingGeneratedLineDelta
  line : b.generatedLine + b.pendingGeneratedLineDelta = separators ops

theorem Flushed.congr {b c : Builder} (h : Flushed b windows)
    (hentries : c.syncEntries = b.syncEntries) (hstream : c.winStream = b.winStream) : Flushed c windows where
  stream := hstream ▸ h.stream
  length := hentries ▸ h.length
  entries := hentries ▸ h.entries
  filled := h.filled

theorem Stored.appendLineSeparator (h : Stored b windows ops) (hlines : separators (ops ++ [.lineSeparator]) < 2147483648) :
    Stored b.appendLineSeparator windows (ops ++ [.lineSeparator]) := by
  have hgenerated := h.generatedLine
  have hpending := h.pendingDelta
  have hline := h.line
  rw [separators_append] at hlines
  have hone : separators [.lineSeparator] = 1 := rfl
  have hdelta : i32 (b.pendingGeneratedLineDelta + 1) = b.pendingGeneratedLineDelta + 1 := by
    apply i32_of_range
    unfold Int32Range
    omega
  constructor
  · exact h.flushed.congr rfl rfl
  · show windows.flatten ++ b.pending = _
    rw [h.states, appended_append]
    simp [appended]
  · exact h.pending
  · exact hgenerated
  · show 0 ≤ i32 _
    omega
  · show b.generatedLine + i32 _ = _
    rw [separators_append, hdelta]
    omega

theorem Stored.appendMapping (h : Stored b windows ops) (current : SourceMapState) (hlines : separators ops < 2147483648) :
    ∃ windows', Stored (b.appendMapping current) windows' (ops ++ [.mapping current]) := by
  have hgenerated := h.generatedLine
  have hpendingDelta := h.pendingDelta
  have hline : i32 (b.generatedLine + b.pendingGeneratedLineDelta) = separators ops := by
    rw [h.line]
    apply i32_of_range
    unfold Int32Range
    omega
  have hstates : windows.flatten ++ (b.pending ++ [{current with generatedLine := (separators ops : Int)}]) =
      appended 0 (ops ++ [.mapping current]) := by
    rw [appended_append, ← h.states, Int.zero_add, List.append_assoc]
    rfl
  have hseparators : separators (ops ++ [.mapping current]) = separators ops := by
    rw [separators_append]
    rfl
  unfold Builder.appendMapping
  simp only [hline]
  generalize hpending : b.pending ++ [{current with generatedLine := (separators ops : Int)}] = pending
  have hlength : pending.length = b.pending.length + 1 := by rw [← hpending, List.length_append]; rfl
  have hlt := h.pending
  by_cases hfull : pending.length = syncInterval
  · rw [if_pos hfull]
    cases pending with
    | nil => exact absurd hfull (by decide)
    | cons first rest =>
      refine ⟨windows ++ [first :: rest], ?_⟩
      constructor
      · exact (h.flushed.congr (c := { b with
          generatedLine := separators ops, pendingGeneratedLineDelta := 0, pending := first :: rest
          count := (b.count + 1) % UInt32.size }) rfl rfl).flushWindow rfl (Nat.le_of_eq hfull)
      · show (windows ++ [first :: rest]).flatten ++ [] = _
        rw [List.append_nil, List.flatten_append, ← hstates, ← hpending]
        simp [hpending]
      · exact (by decide : 0 < 64)
      · exact Int.natCast_nonneg _
      · exact le_rfl
      · show (separators ops : Int) + 0 = _
        rw [hseparators, add_zero]
  · rw [if_neg hfull]
    refine ⟨windows, ?_⟩
    constructor
    · exact h.flushed.congr rfl rfl
    · show windows.flatten ++ pending = _
      rw [← hpending]
      exact hstates
    · show pending.length < 64
      have : b.pending.length < 64 := hlt
      have : ¬pending.length = 64 := hfull
      omega
    · exact Int.natCast_nonneg _
    · exact le_rfl
    · show (separators ops : Int) + 0 = _
      rw [hseparators, add_zero]

theorem stored_run (ops : List Call) (hlines : separators ops < 2147483648) :
    ∃ windows, Stored (ops.foldl Builder.call .init) windows ops := by
  induction ops using List.reverseRecOn with
  | nil =>
    exact ⟨[],
      { flushed := flushed_init
        states := rfl
        pending := by decide
        generatedLine := le_rfl
        pendingDelta := le_rfl
        line := rfl }⟩
  | append_singleton ops op ih =>
    have hle : separators ops ≤ separators (ops ++ [op]) := by
      rw [separators_append]
      exact Nat.le_add_right _ _
    rcases ih (by omega) with ⟨windows, h⟩
    rw [List.foldl_append]
    cases op with
    | lineSeparator => exact ⟨windows, h.appendLineSeparator hlines⟩
    | mapping current => exact h.appendMapping current (by omega)

/-! ### The round trip -/

theorem windowOffset_le (h : Flushed b windows) (i : Nat) :
    windowOffset windows i ≤ b.winStream.length := by
  have hsplit := congrArg (fun ws => (List.flatMap windowBytes ws).length) (List.take_append_drop i windows)
  simp only [List.flatMap_append, List.length_append] at hsplit
  rw [h.stream, ← hsplit]
  exact Nat.le_add_right _ _

theorem length_deltas_le (h : window.length ≤ syncInterval) :
    (deltas window).length ≤ 63 := by
  cases window with
  | nil => exact Nat.zero_le _
  | cons first rest =>
    rw [length_deltas]
    exact Nat.le_of_succ_le_succ h

theorem length_windows (h : ∀ window ∈ windows, window.length ≤ syncInterval) :
    windows.length * 32 ≤ (windows.flatMap windowBytes).length := by
  induction windows with
  | nil => exact le_rfl
  | cons window windows ih =>
    have hone := (length_windowBytes (length_deltas_le (h window List.mem_cons_self))).1
    have hrest := ih fun w hw => h w (List.mem_cons_of_mem _ hw)
    rw [List.flatMap_cons, List.length_append, List.length_cons]
    omega

/-- The waiting mappings become the last window. -/
theorem Stored.flush (h : Stored b windows ops) :
    ∃ windows', Flushed b.flushWindow windows' ∧ windows'.flatten = appended 0 ops ∧
      windows'.length ≤ windows.length + 1 ∧ b.flushWindow.winStream.length ≤ b.winStream.length + 4096 ∧
      ∀ i < windows'.length, windowOffset windows' i ≤ b.winStream.length := by
  cases hpending : b.pending with
  | nil =>
    have heq : b.flushWindow = b := by
      unfold Builder.flushWindow
      rw [hpending]
    have hstates := h.states
    rw [hpending, List.append_nil] at hstates
    rw [heq]
    exact ⟨windows, h.flushed, hstates, Nat.le_succ _, Nat.le_add_right _ _, fun i _ => windowOffset_le h.flushed i⟩
  | cons first rest =>
    have hlength := Nat.le_of_lt h.pending
    have hstream : b.flushWindow.winStream = b.winStream ++ windowBytes b.pending := by
      unfold Builder.flushWindow
      rw [hpending]
    refine ⟨windows ++ [b.pending], h.flushed.flushWindow hpending hlength, ?_, ?_, ?_, ?_⟩
    · rw [List.flatten_append, List.flatten_singleton, h.states]
    · rw [List.length_append, List.length_singleton]
    · have hlast := (length_windowBytes (length_deltas_le hlength)).2
      rw [hstream, List.length_append]
      omega
    · intro i hi
      rw [List.length_append, List.length_singleton] at hi
      rw [windowOffset_append (Nat.le_of_lt_succ hi)]
      exact windowOffset_le h.flushed i

theorem decodeWindows_finalize (ops : List Call) (hfits : Fits ops) (hlines : separators ops < 2147483648)
    (hstream : (ops.foldl Builder.call .init).winStream.length < UInt32.size) (count inputLineCount : Nat) :
    ∃ blob, (ops.foldl Builder.call .init).finalize = some blob ∧
      decodeWindows (generateChunk blob count inputLineCount) = appended 0 ops := by
  have hsize : UInt32.size = 4294967296 := rfl
  have hheader : headerSize = 32 := rfl
  rcases stored_run _ hlines with ⟨windows, h⟩
  rcases h.flush with ⟨windows', hflushed, hstates, hcount, hlength, hoffset⟩
  have hwindows := length_windows fun w hw => (h.flushed.filled w hw).2
  rw [← h.flushed.stream] at hwindows
  have hentries : headerSize + (ops.foldl Builder.call .init).flushWindow.syncEntries.length * 24 < UInt32.size := by
    rw [hflushed.length]
    omega
  refine ⟨_, finalize_eq hentries, ?_⟩
  rw [decodeWindows_eq (holds_generateChunk hentries (by omega) count inputLineCount) hflushed, hstates]
  · rw [hstates]
    exact good_appended hfits le_rfl (by omega)
  · intro i hi
    exact Nat.lt_of_le_of_lt (hoffset i hi) hstream

/-- Reading the windows of the finished blob gives back the mappings that were appended, as long as the stream in
front of the last window is shorter than 4 GiB. -/
theorem decodeWindows_generateChunk (ops : List Call) (hfits : Fits ops) (hlines : separators ops < 2147483648)
    (hstream : (ops.foldl Builder.call .init).winStream.length < UInt32.size) (count inputLineCount : Nat) :
    ∃ blob, (ops.foldl Builder.call .init).finalize = some blob ∧
      decodeWindows (generateChunk blob count inputLineCount) = appended 0 ops :=
  decodeWindows_finalize ops hfits hlines hstream count inputLineCount

theorem decodeWindows_generateChunk_lines :
    ∃ blob,
      ([.lineSeparator, .mapping ⟨0, 4, 0, 1, 2⟩, .lineSeparator, .lineSeparator, .mapping ⟨0, 7, 3, 0, 9⟩].foldl
        Builder.call .init).finalize = some blob ∧
      decodeWindows (generateChunk blob 2 3) = [⟨1, 4, 0, 1, 2⟩, ⟨3, 7, 3, 0, 9⟩] :=
  decodeWindows_generateChunk
    [.lineSeparator, .mapping ⟨0, 4, 0, 1, 2⟩, .lineSeparator, .lineSeparator, .mapping ⟨0, 7, 3, 0, 9⟩]
    (by
      intro s hs
      simp only [List.mem_cons, List.not_mem_nil, reduceCtorEq, Call.mapping.injEq, false_or, or_false] at hs
      rcases hs with rfl | rfl <;> constructor <;> (try unfold Int32Range) <;> decide)
    (by decide) (by decide) 2 3

/-! ### Too many windows

The table of the entries has to end below 4 GiB. -/

theorem length_flatten_le (h : ∀ window ∈ windows, window.length ≤ syncInterval) :
    windows.flatten.length ≤ windows.length * 64 := by
  induction windows with
  | nil => exact le_rfl
  | cons window windows ih =>
    have hone : window.length ≤ 64 := h window List.mem_cons_self
    have hrest := ih fun w hw => h w (List.mem_cons_of_mem _ hw)
    rw [List.flatten_cons, List.length_append, List.length_cons]
    omega

theorem appended_replicate (n : Nat) : appended 0 (.replicate n (.mapping .zero)) = .replicate n .zero := by
  induction n with
  | zero => rfl
  | succ n ih => exact congrArg (List.cons SourceMapState.zero) ih

theorem separators_replicate (n : Nat) : separators (.replicate n (.mapping .zero)) = 0 := by
  induction n with
  | zero => rfl
  | succ n ih => exact ih

theorem finalize_replicate {n : Nat} (h : 17179869184 ≤ n) :
    ((List.replicate n (.mapping .zero)).foldl Builder.call .init).finalize = none := by
  have hlines := separators_replicate n
  rcases stored_run (List.replicate n (.mapping .zero)) (by omega) with ⟨windows, hstored⟩
  rcases hstored.flush with ⟨windows', hflushed, hstates, _⟩
  have hcount := length_flatten_le fun w hw => (hflushed.filled w hw).2
  rw [hstates, appended_replicate, List.length_replicate, ← hflushed.length] at hcount
  have hsize : UInt32.size = 4294967296 := rfl
  unfold Builder.finalize
  rw [if_neg]
  intro hfits
  have := hfits.2
  unfold headerSize at this
  omega

/-- With 2 ^ 34 mappings the builder gives up. -/
theorem decodeWindows_generateChunk_replicate :
    Fits (.replicate 17179869184 (.mapping .zero)) ∧ separators (.replicate 17179869184 (.mapping .zero)) < 2147483648 ∧
      ((List.replicate 17179869184 (.mapping .zero)).foldl Builder.call .init).finalize = none := by
  refine ⟨?_, ?_, finalize_replicate le_rfl⟩
  · intro s hs
    rw [Call.mapping.inj (List.eq_of_mem_replicate hs)]
    constructor <;> (try unfold Int32Range) <;> decide
  · rw [separators_replicate]
    decide

end Funbun.SourceMap.Internal
