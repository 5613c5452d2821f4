import Funbun.Library.Loop
import Funbun.SourceMap.Internal

/-! A window is read as it was written. -/
namespace Funbun.SourceMap.Internal
open Library

/-! ### Zig-zag -/

theorem getLsbD_31 (v : BitVec 32) : v.getLsbD 31 = v.msb := by
  simp [BitVec.msb_eq_getLsbD_last]

variable {v : BitVec 32} {value : Int} {n pos k start : Nat} {bytes mask : List UInt8} {d : Delta} {ds : List Delta} {s : Lanes}
  {window : List SourceMapState}

theorem shift_31 (h : v.msb = false) : v >>> 31 = 0#32 := by
  ext i hi
  simp only [BitVec.getElem_ushiftRight, BitVec.getElem_zero]
  by_cases hzero : i = 0
  · subst hzero
    rw [← h]
    exact getLsbD_31 v
  · exact BitVec.getLsbD_of_ge _ _ (by omega)

theorem double_half (h : v.msb = false) : (v <<< 1) >>> 1 = v := by
  ext i hi
  have hlast := getLsbD_31 v
  by_cases heq : i = 31
  · subst heq
    simpa [h] using hlast.symm
  · simp
    grind

theorem double_half_not (h : v.msb = true) : ~~~((~~~(v <<< 1)) >>> 1) = v := by
  ext i hi
  have hlast := getLsbD_31 v
  by_cases heq : i = 31
  · subst heq
    simpa [h] using hlast.symm
  · simp
    grind

theorem double_and_one (v : BitVec 32) : (v <<< 1) &&& 1#32 = 0#32 := by
  ext i hi
  simp
  omega

theorem not_double_and_one (v : BitVec 32) : (~~~(v <<< 1)) &&& 1#32 = 1#32 := by
  ext i hi
  simp
  omega

theorem zigzag_bits (v : BitVec 32) :
    ((((v <<< 1) ^^^ v.sshiftRight 31) >>> 1) ^^^ -(((v <<< 1) ^^^ v.sshiftRight 31) &&& 1#32)) = v := by
  cases hmsb : v.msb
  · rw [BitVec.sshiftRight_eq_of_msb_false hmsb, shift_31 hmsb, BitVec.xor_zero, double_and_one, double_half hmsb]
    simp
  · have hnot : (~~~v).msb = false := by simp [hmsb]
    have hones : ~~~(0#32) = BitVec.allOnes 32 := rfl
    have hneg : -(1#32) = BitVec.allOnes 32 := rfl
    rw [BitVec.sshiftRight_eq_of_msb_true hmsb, shift_31 hnot, hones, BitVec.xor_allOnes, not_double_and_one, hneg,
      BitVec.xor_allOnes]
    exact double_half_not hmsb

theorem zigzagDecode_encode (h : Int32Range value) : zigzagDecode (zigzagEncode value) = value := by
  unfold zigzagDecode zigzagEncode
  simp only [BitVec.ofNat_toNat, BitVec.setWidth_eq, zigzag_bits, BitVec.toInt_ofInt]
  exact i32_of_range h

theorem zigzagEncode_lt (value : Int) : zigzagEncode value < UInt32.size := BitVec.isLt _

/-! ### Varints -/

theorem and_127 (n : Nat) : n &&& 0x7f = n % 128 := Nat.and_two_pow_sub_one_eq_mod n 7

theorem shift_7 (n : Nat) : n >>> 7 = n / 128 := Nat.shiftRight_eq_div_pow n 7

theorem or_128 (h : n < 128) : n ||| 0x80 = n + 128 := by
  rw [Nat.or_comm, ← Nat.two_pow_add_eq_or_of_lt (i := 7) h 1]
  omega

theorem and_128_of_lt : ∀ {n : Nat}, n < 128 → n &&& 0x80 = 0 := by decide

theorem and_128_of_add : ∀ {n : Nat}, n < 128 → (n + 128) &&& 0x80 = 0x80 := by decide

theorem varintBytes_last {n v : Nat} (h : v < 128) : varintBytes (n + 1) v = [UInt8.ofNat v] := by
  have hshift : v >>> 7 = 0 := by
    rw [shift_7]
    omega
  unfold varintBytes
  rw [if_neg (by simp [hshift]), and_127, Nat.mod_eq_of_lt h]

theorem varintBytes_more {n v : Nat} (h : 128 ≤ v) :
    varintBytes (n + 1) v = UInt8.ofNat (v % 128 + 128) :: varintBytes n (v / 128) := by
  have hshift : v >>> 7 ≠ 0 := by
    rw [shift_7]
    omega
  have hmod : v % 128 < 128 := Nat.mod_lt _ (by decide)
  show (if v >>> 7 ≠ 0 then _ else _) = _
  rw [if_pos hshift, and_127, shift_7, or_128 hmod]

theorem toNat_ofNat_lt (h : n < 256) : (UInt8.ofNat n).toNat = n := by
  simp [Nat.mod_eq_of_lt h]

theorem pow_next_7 (k : Nat) : 2 ^ (7 * (k + 1)) = 128 * 2 ^ (7 * k) := by
  ring

/-- Induction on the bytes: those that were read are the accumulator's bits. -/
theorem readVarintRest_at :
    ∀ (n v i k acc m : Nat), At bytes (varintBytes n v) i → v ≠ 0 → v < 2 ^ (7 * n) → n ≤ m → acc < 2 ^ (7 * k) →
      acc + v * 2 ^ (7 * k) < UInt32.size →
      readVarintRest bytes m i (7 * k) acc = (acc + v * 2 ^ (7 * k), i + (varintBytes n v).length)
  | 0, v, _, _, _, _, _, hv, hlt, _, _, _ => absurd hlt (by simp; omega)
  | n + 1, v, i, k, acc, m + 1, hat, hv, hlt, hm, hacc, hfits => by
    have hmod : v % 128 < 128 := Nat.mod_lt _ (by decide)
    have hlow : v % 128 * 2 ^ (7 * k) ≤ v * 2 ^ (7 * k) := Nat.mul_le_mul_right _ (Nat.mod_le _ _)
    have hjoin : acc ||| ((v % 128) <<< (7 * k)) % UInt32.size = acc + v % 128 * 2 ^ (7 * k) :=
      Vlq.join_digit hacc (by omega)
    -- a number that is not zero has its bits below the 32nd
    have hshift : ¬28 < 7 * k := by
      intro hk
      have hpow : 2 ^ 35 ≤ 2 ^ (7 * k) := Nat.pow_le_pow_right (by decide) (by omega)
      have hle : 1 * 2 ^ (7 * k) ≤ v * 2 ^ (7 * k) := Nat.mul_le_mul_right _ (Nat.pos_of_ne_zero hv)
      have : acc + v * 2 ^ (7 * k) < 2 ^ 32 := hfits
      omega
    by_cases hlast : v < 128
    · rw [varintBytes_last hlast] at hat ⊢
      have hbyte := hat.getD 0
      have hlen := hat.lt
      rw [Nat.mod_eq_of_lt hlast] at hjoin
      have hguard : ¬(bytes.length ≤ i ∨ 28 < 7 * k) := by omega
      simp only [readVarintRest, if_neg hguard, hbyte, toNat_ofNat_lt (by omega : v < 256), and_127,
        Nat.mod_eq_of_lt hlast, hjoin, and_128_of_lt hlast, if_true]
      rfl
    · rw [varintBytes_more (by omega)] at hat ⊢
      have hbyte := hat.getD 0
      have hlen := hat.lt
      have hguard : ¬(bytes.length ≤ i ∨ 28 < 7 * k) := by omega
      have hsplit : acc + v % 128 * 2 ^ (7 * k) + v / 128 * 2 ^ (7 * (k + 1)) = acc + v * 2 ^ (7 * k) := by
        have hdiv : v % 128 + 128 * (v / 128) = v := Nat.mod_add_div v 128
        rw [pow_next_7]
        calc acc + v % 128 * 2 ^ (7 * k) + v / 128 * (128 * 2 ^ (7 * k))
            = acc + (v % 128 + 128 * (v / 128)) * 2 ^ (7 * k) := by ring
          _ = acc + v * 2 ^ (7 * k) := by rw [hdiv]
      have hacc' : acc + v % 128 * 2 ^ (7 * k) < 2 ^ (7 * (k + 1)) := by
        have hpow := pow_next_7 k
        have : v % 128 * 2 ^ (7 * k) ≤ 127 * 2 ^ (7 * k) := Nat.mul_le_mul_right _ (by omega)
        omega
      have hrest : v / 128 < 2 ^ (7 * n) := by
        have hpow := pow_next_7 n
        omega
      have ih := readVarintRest_at n (v / 128) (i + 1) (k + 1) (acc + v % 128 * 2 ^ (7 * k)) m hat.tail (by omega) hrest
        (by omega) hacc' (by rw [hsplit]; exact hfits)
      have hindex : (v % 128 + 128) % 128 = v % 128 := by omega
      simp only [readVarintRest, if_neg hguard, hbyte, toNat_ofNat_lt (by omega : v % 128 + 128 < 256), and_127, hindex,
        hjoin, and_128_of_add hmod]
      rw [if_neg (by decide), show 7 * k + 7 = 7 * (k + 1) by ring, ih, hsplit, List.length_cons]
      congr 1
      omega

/-- A number is read where it was written, and the position behind it is right. -/
theorem readVarint_at (hvalue : Int32Range value)
    (hat : At bytes (writeVarint value) pos) : readVarint bytes pos = (value, pos + (writeVarint value).length) := by
  have hdecode := zigzagDecode_encode hvalue
  have hlt : zigzagEncode value < 4294967296 := zigzagEncode_lt value
  unfold writeVarint at hat ⊢
  by_cases hlast : zigzagEncode value < 128
  · have heq : varintBytes maxVarintLen (zigzagEncode value) = [UInt8.ofNat (zigzagEncode value)] :=
      varintBytes_last hlast
    rw [heq] at hat ⊢
    have hbyte := hat.getD 0
    unfold readVarint
    simp only [hbyte, toNat_ofNat_lt (by omega : zigzagEncode value < 256), if_pos hlast, hdecode]
    rfl
  · have heq : varintBytes maxVarintLen (zigzagEncode value) =
        UInt8.ofNat (zigzagEncode value % 128 + 128) :: varintBytes 4 (zigzagEncode value / 128) :=
      varintBytes_more (by omega)
    rw [heq] at hat ⊢
    have hbyte := hat.getD 0
    have hrest := readVarintRest_at 4 (zigzagEncode value / 128) (pos + 1) 1 (zigzagEncode value % 128) maxVarintLen
      hat.tail (by omega) (by omega) (by decide) (Nat.mod_lt _ (by decide)) (by
        show _ < 4294967296
        omega)
    have hnot : ¬zigzagEncode value % 128 + 128 < 0x80 := by omega
    have hindex : (zigzagEncode value % 128 + 128) % 128 = zigzagEncode value % 128 := by omega
    have hsum : zigzagEncode value % 128 + zigzagEncode value / 128 * 2 ^ (7 * 1) = zigzagEncode value := by omega
    unfold readVarint
    simp only [hbyte, toNat_ofNat_lt (by omega : zigzagEncode value % 128 + 128 < 256), if_neg hnot, and_127, hindex]
    rw [show (7 : Nat) = 7 * 1 from rfl, hrest, hsum, hdecode, List.length_cons]
    congr 1
    omega

/-! ### Masks -/

theorem shift_3 (n : Nat) : n >>> 3 = n / 8 := Nat.shiftRight_eq_div_pow n 3

theorem and_7 (n : Nat) : n &&& 7 = n % 8 := Nat.and_two_pow_sub_one_eq_mod n 3

/-- The bit of a mask of its own -/
def maskBit (mask : List UInt8) (idx : Nat) : Bool := (mask.getD (idx / 8) 0).toNat.testBit (idx % 8)

theorem testBit_at {base idx : Nat} (hat : At bytes mask base) (hidx : idx / 8 < mask.length) :
    testBit bytes base idx = maskBit mask idx := by
  have hbyte : bytes.getD (base + idx / 8) 0 = mask.getD (idx / 8) 0 := by
    rw [List.getD_eq_getElem?_getD, List.getD_eq_getElem?_getD, hat.getElem?_add hidx]
  unfold testBit maskBit
  rw [shift_3, and_7, hbyte, Nat.testBit, Nat.and_comm]

theorem maskBit_setBit (hk : k / 8 < mask.length) (idx : Nat) :
    maskBit (setBit mask k) idx = (decide (idx = k) || maskBit mask idx) := by
  unfold maskBit setBit
  rw [shift_3, and_7, List.getD_eq_getElem?_getD, List.getElem?_modify]
  by_cases hbyte : k / 8 = idx / 8
  · have hlt : idx / 8 < mask.length := hbyte ▸ hk
    have hor : (mask[idx / 8].toNat ||| 1 <<< (k % 8)) < 256 := by
      apply Nat.or_lt_two_pow (n := 8) (UInt8.toNat_lt _)
      rw [Nat.one_shiftLeft]
      exact Nat.pow_lt_pow_right (by decide) (Nat.mod_lt _ (by decide))
    simp only [if_pos hbyte, List.getD_eq_getElem?_getD, List.getElem?_eq_getElem hlt, Option.map_eq_map,
      Option.map_some, Option.getD_some, toNat_ofNat_lt hor]
    rw [Nat.testBit_or, Nat.one_shiftLeft, Nat.testBit_two_pow]
    by_cases heq : idx = k
    · subst heq
      simp
    · have hne : ¬k % 8 = idx % 8 := by omega
      simp [heq, hne]
  · have hne : idx ≠ k := fun h => hbyte (by rw [h])
    simp [hbyte, hne]

@[simp] theorem length_setBit (mask : List UInt8) (k : Nat) : (setBit mask k).length = mask.length := by
  simp [setBit]

theorem maskBit_zero (idx : Nat) : maskBit (.replicate 8 0) idx = false := by
  unfold maskBit
  rw [List.getD_eq_getElem?_getD, List.getElem?_replicate]
  split <;> simp

/-! ### Streams -/

/-- The numbers of the differences that the bits do not tell -/
def numbers (number : Delta → Option Int) (ds : List Delta) : List UInt8 :=
  ds.flatMap fun d => ((number d).map writeVarint).getD []

def genColOf (d : Delta) : Option Int := some d.genCol
def origLineOf (d : Delta) : Option Int := if d.origLine = d.genLine then none else some d.origLine
def origColOf (d : Delta) : Option Int := if d.origCol = d.genCol then none else some d.origCol
def srcIdxOf (d : Delta) : Option Int := if d.srcIdx = 0 then none else some d.srcIdx

/-- The exceptional lines with their indices -/
def lineStream : Nat → List Delta → List UInt8
  | _, [] => []
  | k, d :: ds => (if d.isException then UInt8.ofNat k :: writeVarint d.genLine else []) ++ lineStream (k + 1) ds

/-- The bits of a mask, from an index on -/
def bitsFrom (p : Delta → Bool) (k : Nat) (ds : List Delta) (idx : Nat) : Bool := decide (k ≤ idx) && (ds[idx - k]?).any p

theorem bitsFrom_cons (p : Delta → Bool) (k : Nat) (d : Delta) (ds : List Delta) (idx : Nat) :
    bitsFrom p k (d :: ds) idx = ((decide (idx = k) && p d) || bitsFrom p (k + 1) ds idx) := by
  unfold bitsFrom
  rcases Nat.lt_trichotomy idx k with h | h | h
  · simp [Nat.not_le.2 h, Nat.ne_of_lt h, show ¬k + 1 ≤ idx by omega]
  · subst h
    simp
  · obtain ⟨j, rfl⟩ := Nat.exists_eq_add_of_lt h
    have hsub : k + j + 1 - k = j + 1 := by omega
    have hsub' : k + j + 1 - (k + 1) = j := by omega
    simp [hsub, hsub', show k ≤ k + j + 1 by omega, show k + j + 1 ≠ k by omega]

/-- A mask that gets the bits of the differences from an index on -/
structure Marked (p : Delta → Bool) (k : Nat) (ds : List Delta) (mask mask' : List UInt8) : Prop where
  length : mask'.length = mask.length
  bit : ∀ idx, maskBit mask' idx = (maskBit mask idx || bitsFrom p k ds idx)

theorem Marked.nil (p : Delta → Bool) (k : Nat) (mask : List UInt8) : Marked p k [] mask mask where
  length := rfl
  bit idx := by simp [bitsFrom]

theorem Marked.cons {p : Delta → Bool} {mask mask' : List UInt8}
    (hk : k / 8 < mask.length) (h : Marked p (k + 1) ds (if p d then setBit mask k else mask) mask') :
    Marked p k (d :: ds) mask mask' := by
  refine ⟨?_, fun idx => ?_⟩
  · rw [h.length]
    split <;> simp
  · rw [h.bit, bitsFrom_cons]
    cases hp : p d
    · simp
    · simp only [if_true, maskBit_setBit hk, Bool.and_true]
      cases decide (idx = k) <;> simp

/-- What the loop adds to the lanes -/
structure Written (k : Nat) (ds : List Delta) (s s' : Lanes) : Prop where
  genCol : s'.genCol = s.genCol ++ numbers genColOf ds
  origLine : s'.origLine = s.origLine ++ numbers origLineOf ds
  origCol : s'.origCol = s.origCol ++ numbers origColOf ds
  genLine : s'.genLine = s.genLine ++ lineStream k ds
  srcIdx : s'.srcIdx = s.srcIdx ++ numbers srcIdxOf ds
  genLineMask : Marked (fun d => decide (1 ≤ d.genLine)) k ds s.genLineMask s'.genLineMask
  origLineEqMask : Marked (fun d => decide (d.origLine = d.genLine)) k ds s.origLineEqMask s'.origLineEqMask
  origColEqMask : Marked (fun d => decide (d.origCol = d.genCol)) k ds s.origColEqMask s'.origColEqMask
  srcIdxMask : Marked (fun d => decide (d.srcIdx = 0)) k ds s.srcIdxMask s'.srcIdxMask
  exceptions : s'.flags.testBit 2 = (s.flags.testBit 2 || ds.any Delta.isException)
  sources : s'.flags.testBit 3 = (s.flags.testBit 3 || ds.any fun d => decide (d.srcIdx ≠ 0))
  flags : s.flags < 16 → s'.flags < 16

theorem numbers_cons (number : Delta → Option Int) (d : Delta) (ds : List Delta) :
    numbers number (d :: ds) = ((number d).map writeVarint).getD [] ++ numbers number ds := rfl

theorem flags_write (s : Lanes) (d : Delta) (k : Nat) :
    (s.write (d, k)).flags =
      (if d.isException then s.flags ||| flagHasGenLineExceptions else s.flags) |||
        if d.srcIdx = 0 then 0 else flagHasSrcIdx := rfl

theorem testBit_exceptions :
    (s.write (d, k)).flags.testBit 2 = (s.flags.testBit 2 || d.isException) := by
  have h₁ : flagHasGenLineExceptions.testBit 2 = true := by decide
  have h₂ : flagHasSrcIdx.testBit 2 = false := by decide
  rw [flags_write, Nat.testBit_or]
  cases d.isException <;> by_cases hsource : d.srcIdx = 0 <;> simp [hsource, Nat.testBit_or, h₁, h₂]

theorem testBit_sources :
    (s.write (d, k)).flags.testBit 3 = (s.flags.testBit 3 || decide (d.srcIdx ≠ 0)) := by
  have h₁ : flagHasGenLineExceptions.testBit 3 = false := by decide
  have h₂ : flagHasSrcIdx.testBit 3 = true := by decide
  rw [flags_write, Nat.testBit_or]
  cases d.isException <;> by_cases hsource : d.srcIdx = 0 <;> simp [hsource, Nat.testBit_or, h₁, h₂]

theorem flags_lt (h : s.flags < 16) : (s.write (d, k)).flags < 16 := by
  rw [flags_write]
  apply Nat.or_lt_two_pow (n := 4)
  · split
    · exact Nat.or_lt_two_pow (n := 4) h (by decide)
    · exact h
  · split <;> decide

theorem written_foldl (ds : List Delta) : ∀ (k : Nat) (s : Lanes), k + ds.length ≤ 64 → s.genLineMask.length = 8 →
    s.origLineEqMask.length = 8 → s.origColEqMask.length = 8 → s.srcIdxMask.length = 8 →
    Written k ds s ((ds.zipIdx k).foldl Lanes.write s) := by
  induction ds with
  | nil =>
    intro k s _ _ _ _ _
    constructor
    all_goals first | exact Marked.nil _ _ _ | simp [numbers, lineStream]
  | cons d ds ih =>
    intro k s hk h₁ h₂ h₃ h₄
    rw [List.length_cons] at hk
    have hbyte : k / 8 < 8 := by omega
    have h := ih (k + 1) (s.write (d, k)) (by omega) (by simp only [Lanes.write]; split <;> simp [h₁])
      (by simp only [Lanes.write]; split <;> simp [h₂]) (by simp only [Lanes.write]; split <;> simp [h₃])
      (by simp only [Lanes.write]; split <;> simp [h₄])
    show Written k (d :: ds) s ((ds.zipIdx (k + 1)).foldl Lanes.write (s.write (d, k)))
    constructor
    · rw [h.genCol, numbers_cons]
      simp [Lanes.write, genColOf]
    · rw [h.origLine, numbers_cons]
      by_cases heq : d.origLine = d.genLine <;> simp [Lanes.write, origLineOf, heq]
    · rw [h.origCol, numbers_cons]
      by_cases heq : d.origCol = d.genCol <;> simp [Lanes.write, origColOf, heq]
    · rw [h.genLine, lineStream]
      by_cases heq : d.isException = true <;> simp [Lanes.write, heq]
    · rw [h.srcIdx, numbers_cons]
      by_cases heq : d.srcIdx = 0 <;> simp [Lanes.write, srcIdxOf, heq]
    · exact Marked.cons (by omega) (by simpa [Lanes.write] using h.genLineMask)
    · exact Marked.cons (by omega) (by simpa [Lanes.write] using h.origLineEqMask)
    · exact Marked.cons (by omega) (by simpa [Lanes.write] using h.origColEqMask)
    · exact Marked.cons (by omega) (by simpa [Lanes.write] using h.srcIdxMask)
    · rw [h.exceptions, List.any_cons, testBit_exceptions, Bool.or_assoc]
    · rw [h.sources, List.any_cons, testBit_sources, Bool.or_assoc]
    · exact fun hflags => h.flags (flags_lt hflags)

theorem written_lanes (window : List SourceMapState) (h : (deltas window).length ≤ 64) :
    Written 0 (deltas window) .empty (lanes window) :=
  written_foldl _ 0 .empty (by omega) rfl rfl rfl rfl

/-! ### What stands where in a window -/

theorem and_exceptions (flags : Nat) : flags &&& flagHasGenLineExceptions ≠ 0 ↔ flags.testBit 2 = true := by
  have h := Nat.and_two_pow flags 2
  rw [show flagHasGenLineExceptions = 2 ^ 2 from rfl, h]
  cases flags.testBit 2 <;> simp

theorem and_sources (flags : Nat) : flags &&& flagHasSrcIdx ≠ 0 ↔ flags.testBit 3 = true := by
  have h := Nat.and_two_pow flags 3
  rw [show flagHasSrcIdx = 2 ^ 3 from rfl, h]
  cases flags.testBit 3 <;> simp

theorem length_varintBytes (n v : Nat) : (varintBytes n v).length ≤ n := by
  induction n generalizing v with
  | zero => exact le_rfl
  | succ n ih =>
    unfold varintBytes
    split
    · exact Nat.succ_le_succ (ih _)
    · simp

theorem length_numbers (number : Delta → Option Int) (ds : List Delta) : (numbers number ds).length ≤ 5 * ds.length := by
  induction ds with
  | nil => exact le_rfl
  | cons d ds ih =>
    have hone : (((number d).map writeVarint).getD []).length ≤ 5 := by
      cases number d with
      | none => exact Nat.zero_le _
      | some value => exact length_varintBytes 5 _
    rw [numbers_cons, List.length_append, List.length_cons]
    omega

/-- The parts of a window, each at its position -/
structure Layout (bytes : List UInt8) (start : Nat) (n : Nat) (s : Lanes) : Prop where
  count : bytes.getD start 0 = UInt8.ofNat n
  flags : bytes.getD (start + 1) 0 = UInt8.ofNat s.flags
  genColLen : readNumber bytes (start + 2) 2 = s.genCol.length
  origLineLen : readNumber bytes (start + 4) 2 = s.origLine.length
  origColLen : readNumber bytes (start + 6) 2 = s.origCol.length
  genLineMask : At bytes s.genLineMask (start + 8)
  origLineEqMask : At bytes s.origLineEqMask (start + 16)
  origColEqMask : At bytes s.origColEqMask (start + 24)
  genCol : At bytes s.genCol (start + 32)
  origLine : At bytes s.origLine (start + 32 + s.genCol.length)
  origCol : At bytes s.origCol (start + 32 + s.genCol.length + s.origLine.length)
  genLine : At bytes s.genLineStream (start + 32 + s.genCol.length + s.origLine.length + s.origCol.length)
  srcIdx : At bytes s.srcIdxStream
    (start + 32 + s.genCol.length + s.origLine.length + s.origCol.length + s.genLineStream.length)

theorem readNumber_at {pos width v : Nat} (hat : At bytes (leBytes width v) pos)
    (hv : v < 256 ^ width) : readNumber bytes pos width = v := by
  have htake := hat.take
  rw [length_leBytes] at htake
  unfold readNumber
  rw [htake, ofLeBytes_leBytes hv]

theorem layout (h : (deltas window).length ≤ 63)
    (hat : At bytes (windowBytes window) start) : Layout bytes start window.length (lanes window) := by
  have hw := written_lanes window (by omega)
  have hgenCol : (lanes window).genCol.length < 256 ^ 2 := by
    have := length_numbers genColOf (deltas window)
    rw [hw.genCol]
    show (numbers genColOf (deltas window)).length < 65536
    omega
  have horigLine : (lanes window).origLine.length < 256 ^ 2 := by
    have := length_numbers origLineOf (deltas window)
    rw [hw.origLine]
    show (numbers origLineOf (deltas window)).length < 65536
    omega
  have horigCol : (lanes window).origCol.length < 256 ^ 2 := by
    have := length_numbers origColOf (deltas window)
    rw [hw.origCol]
    show (numbers origColOf (deltas window)).length < 65536
    omega
  have hm₁ : (lanes window).genLineMask.length = 8 := hw.genLineMask.length
  have hm₂ : (lanes window).origLineEqMask.length = 8 := hw.origLineEqMask.length
  have hm₃ : (lanes window).origColEqMask.length = 8 := hw.origColEqMask.length
  unfold windowBytes Lanes.header at hat
  simp only [List.append_assoc, List.cons_append, List.nil_append] at hat
  have h₁ := hat.tail
  have h₂ := h₁.tail
  have h₃ := h₂.right
  have h₄ := h₃.right
  have h₅ := h₄.right
  have h₆ := h₅.right
  have h₇ := h₆.right
  have h₈ := h₇.right
  have h₉ := h₈.right
  have h₁₀ := h₉.right
  have h₁₁ := h₁₀.right
  have h₁₂ := h₁₁.right
  simp only [length_leBytes, hm₁, hm₂, hm₃, add_assoc, Nat.reduceAdd] at h₂ h₃ h₄ h₅ h₆ h₇ h₈ h₉ h₁₀ h₁₁ h₁₂
  exact
    { count := hat.getD 0
      flags := h₁.getD 0
      genColLen := readNumber_at h₂.left hgenCol
      origLineLen := readNumber_at h₃.left horigLine
      origColLen := readNumber_at h₄.left horigCol
      genLineMask := h₅.left
      origLineEqMask := h₆.left
      origColEqMask := h₇.left
      genCol := h₈.left
      origLine := by simpa only [add_assoc] using h₉.left
      origCol := by simpa only [add_assoc] using h₁₀.left
      genLine := by simpa only [add_assoc] using h₁₁.left
      srcIdx := by simpa only [add_assoc] using h₁₂ }

/-! ### The reader -/

theorem i32_range (n : Int) : Int32Range (i32 n) := by
  have hlow := Int.le_bmod (x := n) (m := UInt32.size) (by decide)
  have hhigh := Int.bmod_le (x := n) (m := UInt32.size) (by decide)
  have hsize : (UInt32.size : Int) = 4294967296 := rfl
  rw [hsize] at hlow hhigh
  unfold Int32Range i32
  omega

/-- The numbers of a difference are `i32`s. -/
structure Delta.InRange (d : Delta) : Prop where
  genLine : Int32Range d.genLine
  genCol : Int32Range d.genCol
  origLine : Int32Range d.origLine
  origCol : Int32Range d.origCol
  srcIdx : Int32Range d.srcIdx

/-- The cursor of the exceptional lines is in front of the next one, whose index is known. -/
def LineCursor (bytes : List UInt8) (ds : List Delta) (i : Nat) (r : WindowReader) : Prop :=
  (r.genLineExcNextIdx = 0xFF ∧ ∀ d ∈ ds, d.isException = false) ∨
    (r.flags ≠ 0 ∧ At bytes (lineStream i (ds.drop i) ++ [0xFF]) r.genLineExcPos ∧
      r.genLineExcNextIdx = (bytes.getD r.genLineExcPos 0).toNat)

def SourceCursor (bytes : List UInt8) (ds : List Delta) (i : Nat) (r : WindowReader) : Prop :=
  (r.flags.testBit 3 = false ∧ ∀ d ∈ ds, d.srcIdx = 0) ∨
    (r.flags.testBit 3 = true ∧ At bytes (numbers srcIdxOf (ds.drop i)) r.srcIdxExcPos ∧
      ∀ j d, ds[j]? = some d → testBit bytes r.srcIdxMask j = decide (d.srcIdx = 0))

/-- The reader in front of a difference: every cursor is in front of what is left of its stream. -/
structure Reading (bytes : List UInt8) (base : Nat) (ds : List Delta) (i : Nat) (r : WindowReader) : Prop where
  text : r.bytes = bytes
  start : r.base = base
  count : r.count = ds.length + 1
  deltaIdx : r.deltaIdx = i
  genLineMask : ∀ j d, ds[j]? = some d → testBit bytes (base + genLineMaskOff) j = decide (1 ≤ d.genLine)
  origLineEqMask : ∀ j d, ds[j]? = some d → testBit bytes (base + origLineEqMaskOff) j = decide (d.origLine = d.genLine)
  origColEqMask : ∀ j d, ds[j]? = some d → testBit bytes (base + origColEqMaskOff) j = decide (d.origCol = d.genCol)
  genCol : At bytes (numbers genColOf (ds.drop i)) r.genColPos
  origLine : At bytes (numbers origLineOf (ds.drop i)) r.origLineExcPos
  origCol : At bytes (numbers origColOf (ds.drop i)) r.origColExcPos
  genLine : LineCursor bytes ds i r
  srcIdx : SourceCursor bytes ds i r

/-- The pairs of an index and a number are skipped up to the closing byte. -/
theorem skipExceptions_at :
    ∀ (ds : List Delta) (k pos fuel : Nat), (∀ d ∈ ds, d.InRange) → k + ds.length < 255 →
      At bytes (lineStream k ds ++ [0xFF]) pos → (lineStream k ds).length < fuel →
      WindowReader.skipExceptions bytes fuel pos = pos + (lineStream k ds).length
  | [], k, pos, fuel + 1, _, _, hat, _ => by
    have hbyte : bytes.getD pos 0 = 0xFF := At.getD (show At bytes (0xFF :: []) pos from hat) 0
    unfold WindowReader.skipExceptions
    rw [if_neg fun h => h.2 hbyte]
    rfl
  | d :: ds, k, pos, fuel + 1, hrange, hk, hat, hfuel => by
    rw [List.length_cons] at hk
    have hrange' : ∀ d ∈ ds, d.InRange := fun d hd => hrange d (List.mem_cons_of_mem _ hd)
    by_cases hexc : d.isException = true
    · simp only [lineStream, hexc, if_true, List.cons_append, List.append_assoc] at hat hfuel ⊢
      rw [List.length_cons, List.length_append] at hfuel
      have hbyte := hat.getD 0
      have hread := readVarint_at (hrange d List.mem_cons_self).genLine hat.tail.left
      have hne : UInt8.ofNat k ≠ 0xFF := by
        intro heq
        have := congrArg UInt8.toNat heq
        rw [toNat_ofNat_lt (by omega)] at this
        have : k = 255 := this
        omega
      unfold WindowReader.skipExceptions
      rw [if_pos ⟨hat.lt, by rw [hbyte]; exact hne⟩, hread,
        skipExceptions_at ds (k + 1) _ fuel hrange' (by omega) hat.tail.right (by omega)]
      simp only [List.length_cons, List.length_append]
      omega
    · simp only [lineStream, hexc, if_false, List.nil_append, Bool.false_eq_true] at hat hfuel ⊢
      exact skipExceptions_at ds (k + 1) pos (fuel + 1) hrange' (by omega) hat (by omega)

theorem deltaBit {p : Delta → Bool} {mask mask' bytes : List UInt8} {base : Nat}
    (h : Marked p 0 ds mask mask') (hmask : mask = .replicate 8 0) (hlength : ds.length ≤ 64) (hat : At bytes mask' base) :
    ∀ j d, ds[j]? = some d → testBit bytes base j = p d := by
  intro j d hd
  have hj : j < ds.length := (List.getElem?_eq_some_iff.1 hd).1
  have hbyte : j / 8 < mask'.length := by
    rw [h.length, hmask, List.length_replicate]
    omega
  rw [testBit_at hat hbyte, h.bit, hmask, maskBit_zero, bitsFrom]
  simp [hd]

theorem lineStream_none (h : ∀ d ∈ ds, d.isException = false) (k : Nat) : lineStream k ds = [] := by
  induction ds generalizing k with
  | nil => rfl
  | cons d ds ih =>
    rw [lineStream, if_neg (by simp [h d List.mem_cons_self]), ih (fun d hd => h d (List.mem_cons_of_mem _ hd))]
    rfl

/-- The header of a window, the cursors of the streams that are always there and where the others start -/
theorem parseHeader_eq (hlength : window.length = (deltas window).length + 1) (hmax : window.length ≤ 64)
    (hat : At bytes (windowBytes window) start) (r : WindowReader) :
    r.parseHeader bytes start =
      let s := lanes window
      ({ r with
          bytes, base := start, genColPos := start + 32
          origLineExcPos := start + 32 + s.genCol.length
          origColExcPos := start + 32 + s.genCol.length + s.origLine.length
          count := (deltas window).length + 1, flags := s.flags, deltaIdx := 0, genLineExcNextIdx := 0xFF },
        start + 32 + s.genCol.length + s.origLine.length + s.origCol.length) := by
  have hl := layout (by omega) hat
  have hw := written_lanes window (by omega)
  have hflags : (bytes.getD (start + 1) 0).toNat = (lanes window).flags := by
    rw [hl.flags]
    apply toNat_ofNat_lt
    have := hw.flags (by decide)
    omega
  have hcount : min (bytes.getD start 0).toNat syncInterval = (deltas window).length + 1 := by
    rw [hl.count, toNat_ofNat_lt (by omega), hlength]
    exact Nat.min_eq_left (by show _ ≤ 64; omega)
  unfold WindowReader.parseHeader
  simp only [hflags, hcount, hl.genColLen, hl.origLineLen, hl.origColLen]
  rfl

/-- The exceptional lines are skipped, and the cursor stands in front of the first one. -/
theorem parseLines_spec (window : List SourceMapState) {r : WindowReader}
    (hrange : ∀ d ∈ deltas window, d.InRange) (hlength : (deltas window).length ≤ 63)
    (hflags : r.flags = (lanes window).flags) (hnext : r.genLineExcNextIdx = 0xFF)
    (hat : At r.bytes (lanes window).genLineStream pos) :
    LineCursor r.bytes (deltas window) 0 (r.parseLines pos).1 ∧
      (r.parseLines pos).2 = pos + (lanes window).genLineStream.length ∧
      ∃ p n, (r.parseLines pos).1 = {r with genLineExcPos := p, genLineExcNextIdx := n} := by
  have hw := written_lanes window (by omega)
  have hexceptions : (lanes window).flags.testBit 2 = (deltas window).any Delta.isException := hw.exceptions
  have hgenLine : (lanes window).genLine = lineStream 0 (deltas window) := hw.genLine
  unfold Lanes.genLineStream at hat ⊢
  rw [hgenLine, ← hflags] at hat ⊢
  rw [← hflags] at hexceptions
  unfold WindowReader.parseLines
  by_cases hany : (deltas window).any Delta.isException = true
  · have hbit : r.flags &&& flagHasGenLineExceptions ≠ 0 := by
      rw [and_exceptions, hexceptions, hany]
    have hnonzero : r.flags ≠ 0 := by
      intro hzero
      rw [hzero] at hbit
      exact hbit rfl
    rw [if_pos hbit] at hat ⊢
    have hlt := hat.length_le
    rw [List.length_append, List.length_singleton] at hlt
    rw [if_pos ⟨hbit, by omega⟩, skipExceptions_at _ 0 pos r.bytes.length hrange (by omega) hat (by omega)]
    refine ⟨.inr ⟨hnonzero, hat, rfl⟩, ?_, pos, _, rfl⟩
    rw [List.length_append]
    rfl
  · have hbit : ¬r.flags &&& flagHasGenLineExceptions ≠ 0 := by
      rw [and_exceptions, hexceptions]
      exact hany
    have hnone : ∀ d ∈ deltas window, d.isException = false := by simpa using hany
    rw [if_neg hbit, lineStream_none hnone, if_neg fun h => hbit h.1]
    exact ⟨.inl ⟨hnext, hnone⟩, rfl, r.genLineExcPos, r.genLineExcNextIdx, rfl⟩

theorem parseSources_spec (window : List SourceMapState) {r : WindowReader}
    (hlength : (deltas window).length ≤ 63) (hflags : r.flags = (lanes window).flags)
    (hat : At r.bytes (lanes window).srcIdxStream pos) :
    SourceCursor r.bytes (deltas window) 0 (r.parseSources pos) ∧
      ∃ p q, r.parseSources pos = {r with srcIdxMask := p, srcIdxExcPos := q} := by
  have hw := written_lanes window (by omega)
  have hsources : (lanes window).flags.testBit 3 = (deltas window).any fun d => decide (d.srcIdx ≠ 0) := hw.sources
  have hsrcIdx : (lanes window).srcIdx = numbers srcIdxOf (deltas window) := hw.srcIdx
  unfold Lanes.srcIdxStream at hat
  rw [hsrcIdx, ← hflags] at hat
  rw [← hflags] at hsources
  unfold WindowReader.parseSources
  by_cases hany : ((deltas window).any fun d => decide (d.srcIdx ≠ 0)) = true
  · have hbit : r.flags &&& flagHasSrcIdx ≠ 0 := by
      rw [and_sources, hsources, hany]
    have hmask : (lanes window).srcIdxMask.length = 8 := hw.srcIdxMask.length
    rw [if_pos hbit] at hat ⊢
    have hright := hat.right
    rw [hmask] at hright
    exact ⟨.inr ⟨hsources.trans hany, hright, deltaBit hw.srcIdxMask rfl (by omega) hat.left⟩, pos, pos + 8, rfl⟩
  · have hbit : ¬r.flags &&& flagHasSrcIdx ≠ 0 := by
      rw [and_sources, hsources]
      exact hany
    have hnone : ∀ d ∈ deltas window, d.srcIdx = 0 := by simpa using hany
    rw [if_neg hbit]
    refine ⟨.inl ⟨?_, hnone⟩, r.srcIdxMask, r.srcIdxExcPos, rfl⟩
    rw [hsources]
    simpa using hany

/-- A window is parsed: the reader stands in front of its first difference. -/
theorem reading_parse (hlength : window.length = (deltas window).length + 1) (hmax : window.length ≤ 64)
    (hrange : ∀ d ∈ deltas window, d.InRange) (hat : At bytes (windowBytes window) start) (r : WindowReader) :
    Reading bytes start (deltas window) 0 (r.parse bytes start) := by
  have hl := layout (by omega) hat
  have hw := written_lanes window (by omega)
  have hgenCol : (lanes window).genCol = numbers genColOf (deltas window) := hw.genCol
  have horigLine : (lanes window).origLine = numbers origLineOf (deltas window) := hw.origLine
  have horigCol : (lanes window).origCol = numbers origColOf (deltas window) := hw.origCol
  unfold WindowReader.parse
  rw [parseHeader_eq hlength hmax hat r]
  obtain ⟨hlines, hpos, p, n, heq⟩ := parseLines_spec window
    (r :=
      { r with
        bytes, base := start, genColPos := start + 32
        origLineExcPos := start + 32 + (lanes window).genCol.length
        origColExcPos := start + 32 + (lanes window).genCol.length + (lanes window).origLine.length
        count := (deltas window).length + 1, flags := (lanes window).flags, deltaIdx := 0, genLineExcNextIdx := 0xFF })
    hrange (by omega) rfl rfl hl.genLine
  simp only [hpos, heq] at hlines ⊢
  obtain ⟨hsources, p', q', heq'⟩ := parseSources_spec window
    (r :=
      { r with
        bytes, base := start, genColPos := start + 32
        origLineExcPos := start + 32 + (lanes window).genCol.length
        origColExcPos := start + 32 + (lanes window).genCol.length + (lanes window).origLine.length
        count := (deltas window).length + 1, flags := (lanes window).flags, deltaIdx := 0
        genLineExcPos := p, genLineExcNextIdx := n })
    (by omega) rfl hl.srcIdx
  rw [heq'] at hsources ⊢
  exact
    { text := rfl
      start := rfl
      count := rfl
      deltaIdx := rfl
      genLineMask := deltaBit hw.genLineMask rfl (by omega) hl.genLineMask
      origLineEqMask := deltaBit hw.origLineEqMask rfl (by omega) hl.origLineEqMask
      origColEqMask := deltaBit hw.origColEqMask rfl (by omega) hl.origColEqMask
      genCol := hgenCol ▸ hl.genCol
      origLine := horigLine ▸ hl.origLine
      origCol := horigCol ▸ hl.origCol
      genLine := hlines
      srcIdx := hsources }

/-! ### One step -/

/-- The state behind a difference -/
def Delta.apply (d : Delta) (state : SourceMapState) : SourceMapState where
  generatedLine := if d.genLine ≠ 0 then i32 (state.generatedLine + d.genLine) else state.generatedLine
  generatedColumn := if d.genLine ≠ 0 then d.genCol else i32 (state.generatedColumn + d.genCol)
  sourceIndex := if d.srcIdx = 0 then state.sourceIndex else i32 (state.sourceIndex + d.srcIdx)
  originalLine := i32 (state.originalLine + d.origLine)
  originalColumn := i32 (state.originalColumn + d.origCol)

theorem numbers_some {number : Delta → Option Int}
    (hat : At bytes (numbers number (d :: ds)) pos) (hnumber : number d = some value) (hvalue : Int32Range value) :
    readVarint bytes pos = (value, pos + (writeVarint value).length) ∧
      At bytes (numbers number ds) (pos + (writeVarint value).length) := by
  rw [numbers_cons, hnumber] at hat
  exact ⟨readVarint_at hvalue hat.left, hat.right⟩

theorem numbers_none {number : Delta → Option Int}
    (hat : At bytes (numbers number (d :: ds)) pos) (hnumber : number d = none) : At bytes (numbers number ds) pos := by
  rw [numbers_cons, hnumber] at hat
  exact hat

/-- The next exceptional index is not smaller, and the closing byte is no index. -/
theorem head_lineStream (ds : List Delta) (k : Nat) (hk : k + ds.length ≤ 255) :
    ∃ byte rest, lineStream k ds ++ [0xFF] = byte :: rest ∧ k ≤ byte.toNat := by
  induction ds generalizing k with
  | nil => exact ⟨0xFF, [], rfl, hk⟩
  | cons d ds ih =>
    rw [List.length_cons] at hk
    by_cases hexc : d.isException = true
    · refine ⟨UInt8.ofNat k, writeVarint d.genLine ++ (lineStream (k + 1) ds ++ [0xFF]), ?_, ?_⟩
      · simp [lineStream, hexc]
      · rw [toNat_ofNat_lt (by omega)]
    · obtain ⟨byte, rest, heq, hle⟩ := ih (k + 1) (by omega)
      refine ⟨byte, rest, ?_, by omega⟩
      simpa [lineStream, hexc] using heq

section Step
variable {bytes : List UInt8} {base i : Nat} {d : Delta} {ds : List Delta} {r : WindowReader}

theorem drop_eq (hd : ds[i]? = some d) : ds.drop i = d :: ds.drop (i + 1) := by
  obtain ⟨hi, rfl⟩ := List.getElem?_eq_some_iff.1 hd
  exact List.drop_eq_getElem_cons hi

/-- Both lines as they come out of the masks, where the line is no exception -/
theorem usual_lines (hexc : d.isException = false) :
    ((if 1 ≤ d.genLine then 1 else 0 : Int), if d.origLine = d.genLine then (if 1 ≤ d.genLine then 1 else 0) else d.origLine) =
      (d.genLine, d.origLine) := by
  have hnot : ¬(1 < d.genLine ∨ d.genLine < 0) := by simpa [Delta.isException] using hexc
  have hline : (if 1 ≤ d.genLine then 1 else 0 : Int) = d.genLine := by split <;> omega
  rw [hline]
  split
  · rename_i heq
    rw [heq]
  · rfl

/-- With the exceptions both lines are as they were written. -/
theorem nextLine_spec (h : LineCursor r.bytes ds i r) (hd : ds[i]? = some d) (hrange : d.InRange)
    (hlength : ds.length < 255)
    (hmask : testBit r.bytes (r.base + origLineEqMaskOff) i = decide (d.origLine = d.genLine)) :
    ∃ p n, r.nextLine i (if 1 ≤ d.genLine then 1 else 0)
          (if d.origLine = d.genLine then (if 1 ≤ d.genLine then 1 else 0) else d.origLine) =
        ({r with genLineExcPos := p, genLineExcNextIdx := n}, d.genLine, d.origLine) ∧
      LineCursor r.bytes ds (i + 1) {r with genLineExcPos := p, genLineExcNextIdx := n} := by
  have hi : i < ds.length := (List.getElem?_eq_some_iff.1 hd).1
  unfold WindowReader.nextLine
  rcases h with ⟨hnext, hnone⟩ | ⟨hflags, hat, hnext⟩
  · refine ⟨r.genLineExcPos, r.genLineExcNextIdx, ?_, .inl ⟨hnext, hnone⟩⟩
    rw [if_neg (by omega)]
    exact congrArg (Prod.mk r) (usual_lines (hnone d (List.mem_of_getElem? hd)))
  · rw [drop_eq hd, lineStream] at hat
    by_cases hexc : d.isException = true
    · rw [if_pos hexc, List.cons_append, List.cons_append, List.append_assoc] at hat
      have hbyte := hat.getD 0
      have hread := readVarint_at hrange.genLine hat.tail.left
      have hidx : r.genLineExcNextIdx = i := by
        rw [hnext, hbyte, toNat_ofNat_lt (by omega)]
      rw [if_pos hidx]
      simp only [hread, hmask]
      refine
        ⟨r.genLineExcPos + 1 + (writeVarint d.genLine).length,
          (r.bytes.getD (r.genLineExcPos + 1 + (writeVarint d.genLine).length) 0).toNat, ?_,
          .inr ⟨hflags, hat.tail.right, rfl⟩⟩
      by_cases heq : d.origLine = d.genLine <;> simp [heq]
    · rw [if_neg hexc, List.nil_append] at hat
      -- the next exception is behind this difference
      have hhead := head_lineStream (ds.drop (i + 1)) (i + 1) (by rw [List.length_drop]; omega)
      rcases hhead with ⟨byte, rest, heq, hle⟩
      have hbyte : r.bytes.getD r.genLineExcPos 0 = byte := by
        rw [heq] at hat
        exact hat.getD 0
      refine ⟨r.genLineExcPos, r.genLineExcNextIdx, ?_, .inr ⟨hflags, hat, hnext⟩⟩
      rw [if_neg (by rw [hnext, hbyte]; omega)]
      exact congrArg (Prod.mk r) (usual_lines (by simpa using hexc))

theorem nextSource_spec (h : SourceCursor r.bytes ds i r) (hd : ds[i]? = some d) (hrange : d.InRange)
    (sourceIndex : Int) :
    ∃ p, r.nextSource i sourceIndex =
        ({r with srcIdxExcPos := p}, if d.srcIdx = 0 then sourceIndex else i32 (sourceIndex + d.srcIdx)) ∧
      SourceCursor r.bytes ds (i + 1) {r with srcIdxExcPos := p} := by
  unfold WindowReader.nextSource
  rcases h with ⟨hbit, hnone⟩ | ⟨hbit, hat, hmask⟩
  · have hcond : ¬r.flags &&& flagHasSrcIdx ≠ 0 := by
      rw [and_sources, hbit]
      simp
    refine ⟨r.srcIdxExcPos, ?_, .inl ⟨hbit, hnone⟩⟩
    rw [if_neg fun h => hcond h.1, if_pos (hnone d (List.mem_of_getElem? hd))]
  · rw [drop_eq hd] at hat
    have hcond := (and_sources r.flags).2 hbit
    by_cases hsource : d.srcIdx = 0
    · refine ⟨r.srcIdxExcPos, ?_, .inr ⟨hbit, numbers_none hat (if_pos hsource), hmask⟩⟩
      rw [if_neg fun h => by simpa [hmask i d hd, hsource] using h.2, if_pos hsource]
    · obtain ⟨hread, hrest⟩ := numbers_some hat (if_neg hsource) hrange.srcIdx
      refine ⟨r.srcIdxExcPos + (writeVarint d.srcIdx).length, ?_, .inr ⟨hbit, hrest, hmask⟩⟩
      rw [if_pos ⟨hcond, by simpa [hmask i d hd] using hsource⟩, if_neg hsource, hread]

/-- A number that the bit of a mask may stand for -/
theorem readUnless {number : Delta → Option Int} {pos : Nat} {value : Int} {b : Bool} {q : Prop} [Decidable q]
    (hat : At bytes (numbers number (d :: ds)) pos) (hnumber : number d = if q then none else some value)
    (hb : b = decide q) (hvalue : Int32Range value) (usual : Int) :
    ∃ p, (if b = true then (usual, pos) else readVarint bytes pos) = (if q then usual else value, p) ∧
      At bytes (numbers number ds) p := by
  by_cases hq : q
  · refine ⟨pos, ?_, numbers_none hat (by rw [hnumber, if_pos hq])⟩
    rw [if_pos hq, if_pos (by simpa [hb] using hq)]
  · have hread := numbers_some hat (by rw [hnumber, if_neg hq]) hvalue
    refine ⟨pos + (writeVarint value).length, ?_, hread.2⟩
    rw [if_neg hq, if_neg (by simpa [hb] using hq)]
    exact hread.1

/-- Without flags there are no exceptions, and what is rare is left out. -/
theorem rareLine_spec (h : LineCursor r.bytes ds i r) (hd : ds[i]? = some d) (hrange : d.InRange)
    (hlength : ds.length < 255)
    (hmask : testBit r.bytes (r.base + origLineEqMaskOff) i = decide (d.origLine = d.genLine)) :
    ∃ p n,
      (if r.flags ≠ 0 then
          r.nextLine i (if 1 ≤ d.genLine then 1 else 0)
            (if d.origLine = d.genLine then (if 1 ≤ d.genLine then 1 else 0) else d.origLine)
        else
          (r, if 1 ≤ d.genLine then 1 else 0,
            if d.origLine = d.genLine then (if 1 ≤ d.genLine then 1 else 0) else d.origLine)) =
        ({r with genLineExcPos := p, genLineExcNextIdx := n}, d.genLine, d.origLine) ∧
      LineCursor r.bytes ds (i + 1) {r with genLineExcPos := p, genLineExcNextIdx := n} := by
  by_cases hflags : r.flags ≠ 0
  · rw [if_pos hflags]
    exact nextLine_spec h hd hrange hlength hmask
  · rw [if_neg hflags]
    rcases h with ⟨hnext, hnone⟩ | ⟨hflags', _⟩
    · refine ⟨r.genLineExcPos, r.genLineExcNextIdx, ?_, .inl ⟨hnext, hnone⟩⟩
      exact congrArg (Prod.mk r) (usual_lines (hnone d (List.mem_of_getElem? hd)))
    · exact absurd hflags' hflags

theorem rareSource_spec (h : SourceCursor r.bytes ds i r) (hd : ds[i]? = some d) (hrange : d.InRange)
    (sourceIndex : Int) :
    ∃ p, (if r.flags ≠ 0 then r.nextSource i sourceIndex else (r, sourceIndex)) =
        ({r with srcIdxExcPos := p}, if d.srcIdx = 0 then sourceIndex else i32 (sourceIndex + d.srcIdx)) ∧
      SourceCursor r.bytes ds (i + 1) {r with srcIdxExcPos := p} := by
  have hnext : (if r.flags ≠ 0 then r.nextSource i sourceIndex else (r, sourceIndex)) = r.nextSource i sourceIndex := by
    rw [ite_eq_left_iff, not_not]
    intro hzero
    rw [WindowReader.nextSource, hzero]
    rfl
  rw [hnext]
  exact nextSource_spec h hd hrange sourceIndex

theorem Reading.next (h : Reading bytes base ds i r) (hd : ds[i]? = some d) (hrange : d.InRange)
    (hlength : ds.length < 255) (state : SourceMapState) :
    Reading bytes base ds (i + 1) (r.next state).1 ∧ (r.next state).2 = d.apply state := by
  have hgenCol := h.genCol
  have horigLine := h.origLine
  have horigCol := h.origCol
  rw [drop_eq hd] at hgenCol horigLine horigCol
  have hlineBit := h.genLineMask i d hd
  rcases numbers_some hgenCol rfl hrange.genCol with ⟨hgen, hat₀⟩
  rcases readUnless horigLine rfl (h.origLineEqMask i d hd) hrange.origLine (if 1 ≤ d.genLine then 1 else 0) with
    ⟨p₁, hline, hat₁⟩
  rcases readUnless horigCol rfl (h.origColEqMask i d hd) hrange.origCol d.genCol with ⟨p₂, hcol, hat₂⟩
  have hsame : (if d.origCol = d.genCol then d.genCol else d.origCol) = d.origCol := by
    split
    · rename_i heq
      rw [heq]
    · rfl
  have hbytes := h.text
  have hbase := h.start
  have hidx := h.deltaIdx
  subst hbytes hbase hidx
  let r' : WindowReader :=
    { r with
      deltaIdx := r.deltaIdx + 1, genColPos := r.genColPos + (writeVarint d.genCol).length, origLineExcPos := p₁
      origColExcPos := p₂ }
  rcases rareLine_spec (r := r') (i := r.deltaIdx) h.genLine hd hrange hlength (h.origLineEqMask _ d hd) with
    ⟨p₃, n, hrareLine, hcursor⟩
  rcases rareSource_spec (r := {r' with genLineExcPos := p₃, genLineExcNextIdx := n}) (i := r.deltaIdx)
    h.srcIdx hd hrange state.sourceIndex with ⟨p₄, hrareSource, hcursor'⟩
  have hnext : r.next state =
      ({r' with genLineExcPos := p₃, genLineExcNextIdx := n, srcIdxExcPos := p₄}, d.apply state) := by
    unfold WindowReader.next
    simp only [hgen, hlineBit, decide_eq_true_eq, hline, hcol, hsame]
    rw [hrareLine]
    simp only
    rw [hrareSource]
    rfl
  rw [hnext]
  exact
    ⟨{ text := rfl
       start := rfl
       count := h.count
       deltaIdx := rfl
       genLineMask := h.genLineMask
       origLineEqMask := h.origLineEqMask
       origColEqMask := h.origColEqMask
       genCol := hat₀
       origLine := hat₁
       origCol := hat₂
       genLine := hcursor
       srcIdx := hcursor' }, rfl⟩

end Step

end Funbun.SourceMap.Internal
