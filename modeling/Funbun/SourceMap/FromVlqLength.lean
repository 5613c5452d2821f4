import Funbun.SourceMap.FromVlqProofs

/-! The windows of a text are not much longer than the text.

A number in a stream is no longer than its digits, and a line break pays for an exceptional line. What is left, the
column and a share of the header, takes at most twice the bytes of a mapping. -/
namespace Funbun.SourceMap.Internal
open Library

/-! ### A window -/

def width (value : Int) : Nat := (writeVarint value).length

theorem width_le (value : Int) : width value ≤ 5 := length_varintBytes 5 _

def cost (d : Delta) : Nat :=
  5 + width d.origLine + width d.origCol + width d.srcIdx + if d.isException then 1 + width d.genLine else 0

def costs (ds : List Delta) : Nat := (ds.map cost).sum

theorem costs_append (a b : List Delta) : costs (a ++ b) = costs a + costs b := by
  unfold costs
  rw [List.map_append, List.sum_append]

/-- The streams of a window, at most -/
theorem length_streams (k : Nat) (ds : List Delta) :
    (numbers genColOf ds).length + (numbers origLineOf ds).length + (numbers origColOf ds).length +
      (lineStream k ds).length + (numbers srcIdxOf ds).length ≤ costs ds := by
  induction ds generalizing k with
  | nil => exact le_rfl
  | cons d ds ih =>
    have hrest := ih (k + 1)
    have hcolumn : (((genColOf d).map writeVarint).getD []).length ≤ 5 := width_le d.genCol
    have hline : (((origLineOf d).map writeVarint).getD []).length ≤ width d.origLine := by
      unfold origLineOf
      split
      · exact Nat.zero_le _
      · exact le_rfl
    have horiginal : (((origColOf d).map writeVarint).getD []).length ≤ width d.origCol := by
      unfold origColOf
      split
      · exact Nat.zero_le _
      · exact le_rfl
    have hsource : (((srcIdxOf d).map writeVarint).getD []).length ≤ width d.srcIdx := by
      unfold srcIdxOf
      split
      · exact Nat.zero_le _
      · exact le_rfl
    have hexception : (if d.isException then UInt8.ofNat k :: writeVarint d.genLine else []).length =
        if d.isException then 1 + width d.genLine else 0 := by
      split
      · rw [List.length_cons, add_comm]
        rfl
      · rfl
    have hcosts : costs (d :: ds) = cost d + costs ds := rfl
    rw [hcosts, cost, lineStream]
    simp only [numbers_cons, List.length_append]
    omega

theorem length_windowBytes_le {window : List SourceMapState} (h : (deltas window).length ≤ 63) :
    (windowBytes window).length ≤ 41 + costs (deltas window) := by
  have hlanes := (length_lanes h).2
  have hstreams := length_streams 0 (deltas window)
  omega

theorem deltas_append (window : List SourceMapState) (next : SourceMapState) :
    deltas (window ++ [next]) = deltas window ++ (window.getLast?.map (delta · next)).toList := by
  induction window with
  | nil => rfl
  | cons first rest ih =>
    cases rest with
    | nil => rfl
    | cons second rest =>
      rw [List.cons_append, List.cons_append, deltas_cons, ← List.cons_append, ih, deltas_cons, List.getLast?_cons_cons]
      rfl

/-! ### The builder -/

/-- What the builder holds, where a waiting mapping has its share of the header -/
def Builder.weight (b : Builder) : Nat := b.winStream.length + b.pending.length + costs (deltas b.pending)

theorem weight_appendMapping (b : Builder) (current : SourceMapState) :
    (b.appendMapping current).weight ≤ b.weight + 1 +
      costs (b.pending.getLast?.map
        (delta · {current with generatedLine := i32 (b.generatedLine + b.pendingGeneratedLineDelta)})).toList := by
  have hdeltas := deltas_append b.pending
    {current with generatedLine := i32 (b.generatedLine + b.pendingGeneratedLineDelta)}
  have hcosts := congrArg costs hdeltas
  rw [costs_append] at hcosts
  unfold Builder.appendMapping Builder.weight
  simp only
  generalize hpending :
    b.pending ++ [{current with generatedLine := i32 (b.generatedLine + b.pendingGeneratedLineDelta)}] = pending at *
  have hlength : pending.length = b.pending.length + 1 := by
    rw [← hpending, List.length_append]
    rfl
  split
  · rename_i hfull
    have hfull : pending.length = 64 := hfull
    cases pending with
    | nil => exact absurd hfull (by decide)
    | cons first rest =>
      have hwindow := @length_windowBytes_le (first :: rest) (by
        rw [length_deltas]
        rw [List.length_cons] at hfull
        omega)
      show (b.winStream ++ windowBytes (first :: rest)).length + 0 + 0 ≤ _
      rw [List.length_append]
      omega
  · show b.winStream.length + pending.length + costs (deltas pending) ≤ _
    omega

theorem appendMapping_fields (b : Builder) (current : SourceMapState) :
    (b.appendMapping current).generatedLine = i32 (b.generatedLine + b.pendingGeneratedLineDelta) ∧
      (b.appendMapping current).pendingGeneratedLineDelta = 0 ∧
      ∀ s, (b.appendMapping current).pending.getLast? = some s →
        s = {current with generatedLine := i32 (b.generatedLine + b.pendingGeneratedLineDelta)} := by
  unfold Builder.appendMapping
  simp only
  split
  · rename_i hfull
    unfold Builder.flushWindow
    simp only
    split
    · rename_i hnil
      rw [hnil] at hfull
      exact absurd hfull (by decide)
    · exact ⟨rfl, rfl, fun s hs => nomatch hs⟩
  · refine ⟨rfl, rfl, fun s hs => ?_⟩
    rw [List.getLast?_append] at hs
    exact (Option.some.inj hs).symm

/-! ### A number -/

theorem zigzagEncode_le {value : Int} (h : value.natAbs < 2147483648) : zigzagEncode value ≤ 2 * value.natAbs := by
  unfold zigzagEncode
  have hnat : (BitVec.ofInt 32 value).toNat = (value % 4294967296).toNat := BitVec.toNat_ofInt value
  have hmsb : (BitVec.ofInt 32 value).msb = decide (value < 0) := by
    rw [BitVec.msb_eq_decide, hnat]
    rcases Int.lt_or_le value 0 with hneg | hneg
    · simp [hneg]; omega
    · simp [Int.not_lt.2 hneg]; omega
  simp only
  by_cases hneg : value < 0
  · rw [BitVec.sshiftRight_eq_of_msb_true (by rw [hmsb]; simp [hneg])]
    have hones : ~~~((~~~BitVec.ofInt 32 value) >>> 31) = BitVec.allOnes 32 := by
      rw [shift_31 (by rw [BitVec.msb_not, hmsb]; simp [hneg])]
      rfl
    rw [hones, BitVec.xor_allOnes, BitVec.toNat_not, BitVec.toNat_shiftLeft, hnat, Nat.shiftLeft_eq]
    omega
  · rw [BitVec.sshiftRight_eq_of_msb_false (by rw [hmsb]; simp [hneg]), shift_31 (by rw [hmsb]; simp [hneg]), BitVec.xor_zero,
      BitVec.toNat_shiftLeft, hnat, Nat.shiftLeft_eq]
    omega

theorem length_varintBytes_of_lt {k : Nat} (n : Nat) {v : Nat} (hk : 0 < k) (h : v < 2 ^ (7 * k)) :
    (varintBytes n v).length ≤ k := by
  induction n generalizing k v with
  | zero => exact Nat.zero_le k
  | succ n ih =>
    by_cases hv : v < 128
    · rw [varintBytes_last hv]
      exact hk
    · rw [varintBytes_more (Nat.not_lt.1 hv), List.length_cons]
      cases k with
      | zero => exact absurd hk (Nat.lt_irrefl 0)
      | succ k =>
        cases k with
        | zero => exact absurd h hv
        | succ k =>
          have hpow : 2 ^ (7 * (k + 1 + 1)) = 2 ^ (7 * (k + 1)) * 128 := pow_add 2 (7 * (k + 1)) 7
          have := ih (k := k + 1) (v := v / 128) (Nat.succ_pos k) (by omega)
          omega
/-- Five digits say how great the number may be. -/
theorem decodeDigits_digits (start : Nat) (bytes : List UInt8) {i vlq : Nat} (hvlq : i ≤ 4 → vlq < 2 ^ (5 * i))
    (h : (Vlq.decodeDigits start bytes i (5 * i) vlq).start ≠ start) :
    ∃ k, 0 < k ∧ k ≤ i + bytes.length ∧ (Vlq.decodeDigits start bytes i (5 * i) vlq).start = start + k ∧
      (k ≤ 5 → 2 * (Vlq.decodeDigits start bytes i (5 * i) vlq).value.natAbs < 2 ^ (5 * k)) := by
  induction bytes generalizing i vlq with
  | nil => exact absurd rfl h
  | cons byte bytes ih =>
    have hnext : i ≤ 4 → vlq ||| ((Vlq.lut (byte &&& 0x7f) &&& 31) <<< (5 * i &&& 31)) % UInt32.size <
        2 ^ (5 * (i + 1)) := by
      intro hi
      have hdigit : Vlq.lut (byte &&& 0x7f) &&& 31 < 32 := Nat.lt_of_le_of_lt Nat.and_le_right (by decide)
      have hshift : 5 * i &&& 31 = 5 * i := by
        rw [Vlq.and_31, Nat.mod_eq_of_lt (by omega)]
      have hpow : 2 ^ (5 * (i + 1)) = 32 * 2 ^ (5 * i) := Vlq.pow_next i
      have hlow := hvlq hi
      apply Nat.or_lt_two_pow
      · omega
      · apply Nat.lt_of_le_of_lt (Nat.mod_le _ _)
        rw [hshift, Nat.shiftLeft_eq, hpow]
        exact Nat.mul_lt_mul_of_pos_right hdigit (Nat.two_pow_pos _)
    have hmul : 5 * i + 5 = 5 * (i + 1) := rfl
    simp only [Vlq.decodeDigits, hmul] at h ⊢
    generalize vlq ||| ((Vlq.lut (byte &&& 0x7f) &&& 31) <<< (5 * i &&& 31)) % UInt32.size = next at *
    split
    · refine ⟨i + 1, Nat.succ_pos i, by rw [List.length_cons]; omega, rfl, fun hi => ?_⟩
      have hlt := hnext (by omega)
      have hhalf : next >>> 1 = next / 2 := Nat.shiftRight_eq_div_pow next 1
      have habs : (if next &&& 1 = 0 then ((next >>> 1 : Nat) : Int) else -((next >>> 1 : Nat) : Int)).natAbs = next / 2 := by
        rw [← hhalf]
        split
        · exact Int.natAbs_natCast _
        · rw [Int.natAbs_neg]
          exact Int.natAbs_natCast _
      show 2 * (if next &&& 1 = 0 then ((next >>> 1 : Nat) : Int) else -((next >>> 1 : Nat) : Int)).natAbs < _
      rw [habs]
      omega
    · rename_i hmore
      rw [if_neg hmore] at h
      obtain ⟨k, hpos, hk, hstart, hvalue⟩ := ih (fun hi => hnext (by omega)) h
      exact ⟨k, hpos, by rw [List.length_cons]; omega, hstart, hvalue⟩

/-- In a stream a number is no longer than its digits. -/
theorem number_length {remain rest : List UInt8} {absolute value : Int}
    (h : VlqReader.number remain absolute = .ok (value, rest)) :
    ∃ k, 0 < k ∧ rest.length + k = remain.length ∧ width (i32 (value - absolute)) ≤ k := by
  unfold VlqReader.number at h
  simp only at h
  split at h
  · cases h
  rename_i hstart
  have hbounds := inRange_decode remain 0
  obtain ⟨k, hpos, hk, hdigits, hvalue⟩ := decodeDigits_digits 0 ((remain.drop 0).take (Vlq.vlqMaxInBytes + 1))
    (i := 0) (by simp) hstart
  change (Vlq.decode remain 0).start = 0 + k at hdigits
  change k ≤ 5 → 2 * (Vlq.decode remain 0).value.natAbs < 2 ^ (5 * k) at hvalue
  rw [List.length_take, List.drop_zero] at hk
  unfold accumulate at h
  split at h
  · injection h with h
    injection h with hvalue' hrest
    refine ⟨k, hpos, ?_, ?_⟩
    · rw [← hrest, List.length_drop, hdigits]
      omega
    · have hsub : i32 (value - absolute) = (Vlq.decode remain 0).value := by
        unfold Vlq.InRange at hbounds
        rw [i32_of_range (by unfold Int32Range; omega)]
        omega
      rw [hsub]
      rcases Nat.lt_or_ge 5 k with hlong | hshort
      · exact Nat.le_trans (width_le _) (Nat.le_of_lt hlong)
      · apply length_varintBytes_of_lt _ hpos
        have hzigzag := zigzagEncode_le hbounds
        have hlt := hvalue hshort
        have hpow : 2 ^ (5 * k) ≤ 2 ^ (7 * k) := Nat.pow_le_pow_right (by decide) (by omega)
        omega
  · cases h

/-! ### The reader -/

/-- The line break or the end that a mapping with four numbers has yet to take -/
def owed (remain : List UInt8) : Nat := if remain = [] ∨ remain.head? = some semicolon then 1 else 0

/-- What the builder holds is paid for by the bytes that are gone. -/
structure Paid (total : Nat) (remain : List UInt8) (r : VlqReader) : Prop where
  generatedLine : 0 ≤ r.builder.generatedLine
  pendingDelta : 0 ≤ r.builder.pendingGeneratedLineDelta
  lines : r.builder.generatedLine + r.builder.pendingGeneratedLineDelta + remain.length ≤ total
  last : ∀ s, r.builder.pending.getLast? = some s → s.generatedLine = r.builder.generatedLine ∧
    s.sourceIndex = r.sourceIndex ∧ s.originalLine = r.originalLine ∧ s.originalColumn = r.originalColumn
  weight : (r.builder.weight : Int) + r.builder.pendingGeneratedLineDelta + 2 * remain.length ≤ 2 * total + owed remain

theorem paid_init (bytes : List UInt8) : Paid bytes.length bytes .init where
  generatedLine := le_rfl
  pendingDelta := le_rfl
  lines := by
    show (0 : Int) + 0 + bytes.length ≤ bytes.length
    omega
  last := fun s hs => nomatch hs
  weight := by
    show (0 : Int) + 0 + 2 * bytes.length ≤ 2 * bytes.length + owed bytes
    omega

theorem owed_le (remain : List UInt8) : owed remain ≤ 1 := by
  unfold owed
  split <;> decide

section Reader
variable {total : Nat} {remain rest : List UInt8} {r r' : VlqReader}

theorem Paid.weight_le (h : Paid total remain r) : r.builder.weight ≤ 2 * total + 1 := by
  have hweight := h.weight
  have hpending := h.pendingDelta
  have howed := owed_le remain
  omega

theorem Paid.newline (h : Paid total (semicolon :: remain) r) (htotal : total < 2147483648) :
    Paid total remain r.newline := by
  have hgenerated := h.generatedLine
  have hpending := h.pendingDelta
  have hlines := h.lines
  have hweight := h.weight
  have howed : owed (semicolon :: remain) = 1 := rfl
  rw [List.length_cons] at hlines hweight
  have hnext : i32 (r.builder.pendingGeneratedLineDelta + 1) = r.builder.pendingGeneratedLineDelta + 1 := by
    apply i32_of_range
    unfold Int32Range
    omega
  constructor
  · exact hgenerated
  · show 0 ≤ i32 _
    omega
  · show r.builder.generatedLine + i32 _ + _ ≤ _
    omega
  · exact h.last
  · show (r.builder.weight : Int) + i32 _ + _ ≤ _
    omega

theorem Paid.lines_read (h : Paid total remain r) (htotal : total < 2147483648) (hread : r.lines remain = (rest, r')) :
    Paid total rest r' ∧ rest.head? ≠ some semicolon := by
  induction remain generalizing r with
  | nil =>
    cases hread
    exact ⟨h, by simp⟩
  | cons byte remain ih =>
    by_cases hbyte : byte = semicolon
    · subst hbyte
      rw [lines_eq] at hread
      exact ih (h.newline htotal) hread
    · have hhead : (byte :: remain).head? ≠ some semicolon := fun heq => hbyte (Option.some.inj heq)
      rw [lines_of_ne hhead] at hread
      cases hread
      exact ⟨h, hhead⟩

/-- The byte behind the four numbers is gone, or it is a line break. -/
theorem owed_name (h : VlqReader.name remain = .ok rest) :
    (VlqReader.skipComma rest).length + 1 ≤ remain.length + owed (VlqReader.skipComma rest) := by
  cases remain with
  | nil =>
    cases h
    exact le_rfl
  | cons c tail =>
    by_cases hcomma : c = comma
    · subst hcomma
      cases h
      exact Nat.le_add_right _ _
    by_cases hsemicolon : c = semicolon
    · subst hsemicolon
      cases h
      exact le_rfl
    have hend : ¬(c :: tail = [] ∨ (c :: tail).head? = some comma ∨ (c :: tail).head? = some semicolon) := by
      simp [hcomma, hsemicolon]
    unfold VlqReader.name at h
    simp only [if_neg hend] at h
    split at h
    · cases h
    · rename_i hstart
      cases h
      have hskip := (skipComma_suffix ((c :: tail).drop (Vlq.decode (c :: tail) 0).start)).length_le
      rw [List.length_drop, List.length_cons] at hskip
      rw [List.length_cons]
      omega

/-- An exceptional line is paid for by its line breaks. -/
theorem exception_le {n : Int} (hnonneg : 0 ≤ n) (hn : n < 2147483648) :
    ((if (decide (1 < n) || decide (n < 0)) = true then 1 + width n else 0 : Nat) : Int) ≤ n := by
  split
  · rename_i h
    have hone : 1 < n := by
      simp only [Bool.or_eq_true, decide_eq_true_eq] at h
      omega
    by_cases hsmall : n < 64
    · have hzigzag := @zigzagEncode_le n (by omega)
      have hwidth : width n ≤ 1 := length_varintBytes_of_lt 5 Nat.one_pos (by omega)
      omega
    · have := width_le n
      omega
  · exact hnonneg

theorem cost_delta {s next : SourceMapState} (hpending : 0 ≤ next.generatedLine - s.generatedLine)
    (hlines : next.generatedLine - s.generatedLine < 2147483648) :
    (cost (delta s next) : Int) ≤ 5 + width (i32 (next.originalLine - s.originalLine)) +
      width (i32 (next.originalColumn - s.originalColumn)) + width (i32 (next.sourceIndex - s.sourceIndex)) +
      (next.generatedLine - s.generatedLine) := by
  have hexception := exception_le hpending hlines
  have hline : (delta s next).genLine = next.generatedLine - s.generatedLine :=
    i32_of_range (by unfold Int32Range; omega)
  unfold cost Delta.isException
  rw [hline]
  show ((5 + width (i32 (next.originalLine - s.originalLine)) + width (i32 (next.originalColumn - s.originalColumn)) +
    width (i32 (next.sourceIndex - s.sourceIndex)) + _ : Nat) : Int) ≤ _
  push_cast at hexception ⊢
  omega

theorem original_ok {tail : List UInt8} (h : VlqReader.original tail r = .ok (rest, r')) :
    ∃ sourceIndex originalLine originalColumn tail₁ tail₂ tail₃ tail₄,
      VlqReader.number tail r.sourceIndex = .ok (sourceIndex, tail₁) ∧
      VlqReader.number tail₁ r.originalLine = .ok (originalLine, tail₂) ∧
      VlqReader.number tail₂ r.originalColumn = .ok (originalColumn, tail₃) ∧ VlqReader.name tail₃ = .ok tail₄ ∧
      rest = VlqReader.skipComma tail₄ ∧ r'.sourceIndex = sourceIndex ∧ r'.originalLine = originalLine ∧
      r'.originalColumn = originalColumn ∧
      r'.builder = r.builder.appendMapping ⟨0, r.generatedColumn, sourceIndex, originalLine, originalColumn⟩ := by
  unfold VlqReader.original at h
  cases h₁ : VlqReader.number tail r.sourceIndex with
  | error e => rw [h₁] at h; cases h
  | ok read₁ =>
  rw [h₁] at h
  change (VlqReader.number _ _ >>= _) = _ at h
  cases h₂ : VlqReader.number read₁.2 r.originalLine with
  | error e => rw [h₂] at h; cases h
  | ok read₂ =>
  rw [h₂] at h
  change (VlqReader.number _ _ >>= _) = _ at h
  cases h₃ : VlqReader.number read₂.2 r.originalColumn with
  | error e => rw [h₃] at h; cases h
  | ok read₃ =>
  rw [h₃] at h
  change (VlqReader.name _ >>= _) = _ at h
  cases h₄ : VlqReader.name read₃.2 with
  | error e => rw [h₄] at h; cases h
  | ok tail₄ =>
  rw [h₄] at h
  cases h
  exact ⟨_, _, _, _, _, _, _, rfl, h₂, h₃, h₄, rfl, rfl, rfl, rfl, rfl⟩

/-- Four numbers and the byte behind them pay for a mapping. -/
theorem Paid.original (h : Paid total remain r) (htotal : total < 2147483648) (hremain : owed remain = 0) {g : Nat}
    (hg : 0 < g) {tail : List UInt8} (htail : tail.length + g = remain.length) (column : Int)
    (hread : VlqReader.original tail {r with generatedColumn := column} = .ok (rest, r')) : Paid total rest r' := by
  obtain ⟨source, line, original, tail₁, tail₂, tail₃, tail₄, h₁, h₂, h₃, h₄, rfl, hsource, hline, horiginal, hbuilder⟩ :=
    original_ok hread
  obtain ⟨k₁, hk₁, hlength₁, hwidth₁⟩ := number_length h₁
  obtain ⟨k₂, hk₂, hlength₂, hwidth₂⟩ := number_length h₂
  obtain ⟨k₃, hk₃, hlength₃, hwidth₃⟩ := number_length h₃
  simp only at hbuilder hwidth₁ hwidth₂ hwidth₃
  have howed := owed_name h₄
  have howed' := owed_le (VlqReader.skipComma tail₄)
  generalize VlqReader.skipComma tail₄ = rest at *
  have hgenerated := h.generatedLine
  have hpending := h.pendingDelta
  have hlines := h.lines
  have hweight := h.weight
  have hi32 : i32 (r.builder.generatedLine + r.builder.pendingGeneratedLineDelta) =
      r.builder.generatedLine + r.builder.pendingGeneratedLineDelta := by
    apply i32_of_range
    unfold Int32Range
    omega
  have hgrown := weight_appendMapping r.builder ⟨0, column, source, line, original⟩
  obtain ⟨hfield₁, hfield₂, hfield₃⟩ := appendMapping_fields r.builder ⟨0, column, source, line, original⟩
  rw [hi32] at hgrown hfield₁ hfield₃
  simp only at hgrown
  have hcosts : (costs (r.builder.pending.getLast?.map
      (delta · ⟨r.builder.generatedLine + r.builder.pendingGeneratedLineDelta, column, source, line, original⟩)).toList :
        Int) ≤ 5 + k₁ + k₂ + k₃ + r.builder.pendingGeneratedLineDelta := by
    cases hlast : r.builder.pending.getLast? with
    | none =>
      show (0 : Int) ≤ _
      omega
    | some s =>
      obtain ⟨hs₁, hs₂, hs₃, hs₄⟩ := h.last s hlast
      have hcost := @cost_delta s
        ⟨r.builder.generatedLine + r.builder.pendingGeneratedLineDelta, column, source, line, original⟩
        (by rw [hs₁]; simp only; omega) (by rw [hs₁]; simp only; omega)
      rw [hs₁, hs₂, hs₃, hs₄] at hcost
      show ((cost (delta s _) + 0 : Nat) : Int) ≤ _
      simp only at hcost
      omega
  constructor
  · rw [hbuilder, hfield₁]
    omega
  · rw [hbuilder, hfield₂]
  · rw [hbuilder, hfield₁, hfield₂]
    omega
  · intro s hs
    rw [hbuilder] at hs
    rw [hfield₃ s hs, hbuilder, hfield₁]
    exact ⟨rfl, hsource.symm, hline.symm, horiginal.symm⟩
  · rw [hbuilder, hfield₂]
    omega

theorem Paid.mapping (h : Paid total remain r) (htotal : total < 2147483648) (hremain : owed remain = 0)
    (hread : VlqReader.mapping remain r = .ok (rest, r')) : Paid total rest r' := by
  unfold VlqReader.mapping at hread
  cases hnumber : VlqReader.number remain r.generatedColumn with
  | error e => rw [hnumber] at hread; cases hread
  | ok read =>
  obtain ⟨column, tail⟩ := read
  obtain ⟨g, hg, htail, _⟩ := number_length hnumber
  rw [hnumber] at hread
  change (if tail = [] ∨ tail.head? = some comma ∨ tail.head? = some semicolon then
    Except.ok (VlqReader.skipComma tail, _) else VlqReader.original tail _) = _ at hread
  split at hread
  · cases hread
    have hskip := (skipComma_suffix tail).length_le
    have hlines := h.lines
    have hweight := h.weight
    exact
      { generatedLine := h.generatedLine
        pendingDelta := h.pendingDelta
        lines := by
          show r.builder.generatedLine + r.builder.pendingGeneratedLineDelta + _ ≤ _
          omega
        last := h.last
        weight := by
          show (r.builder.weight : Int) + r.builder.pendingGeneratedLineDelta + _ ≤ _
          omega }
  · exact h.original htotal hremain hg htail column hread

/-- Induction on the turns -/
theorem Paid.read {n : Nat} (h : Paid total remain r) (htotal : total < 2147483648)
    (hread : VlqReader.read n remain r = .ok r') : r'.builder.weight ≤ 2 * total + 1 := by
  induction n generalizing remain r with
  | zero =>
    cases hread
    exact h.weight_le
  | succ n ih =>
    obtain ⟨rest, r₁, hlines⟩ : ∃ rest r₁, r.lines remain = (rest, r₁) := ⟨_, _, rfl⟩
    obtain ⟨hpaid, hhead⟩ := h.lines_read htotal hlines
    simp only [VlqReader.read, hlines] at hread
    split at hread
    · cases hread
      exact hpaid.weight_le
    · rename_i hne
      have howed : owed rest = 0 := by
        unfold owed
        rw [if_neg]
        simp [hne, hhead]
      cases hmapping : VlqReader.mapping rest r₁ with
      | error e => rw [hmapping] at hread; cases hread
      | ok read =>
        rw [hmapping] at hread
        exact ih (hpaid.mapping htotal howed hmapping) hread

end Reader

theorem length_winStream {bytes : List UInt8} {r : VlqReader} {n : Nat} (hlength : bytes.length < 2147483648)
    (hread : VlqReader.read n bytes .init = .ok r) : r.builder.winStream.length < UInt32.size := by
  have hweight := (paid_init bytes).read hlength hread
  have hsize : UInt32.size = 4294967296 := rfl
  unfold Builder.weight at hweight
  omega

end Funbun.SourceMap.Internal
