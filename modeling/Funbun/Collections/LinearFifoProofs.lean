import Funbun.Collections.LinearFifo

/-! The fifo is a queue: its contents are the list that the same calls make. -/
namespace Funbun.Collections
open Library.Ring (overwrite onRange shiftDownOne Position length_overwrite length_shiftDownOne)

/-! ### Powers of two -/

theorem and_sub_one_of_isPowerOfTwo {n : Nat} (h : isPowerOfTwo n = true) (i : Nat) : i &&& (n - 1) = i % n := by
  have hn : n = 2 ^ n.log2 := by simpa [isPowerOfTwo] using h
  rw [hn]
  exact Nat.and_two_pow_sub_one_eq_mod i n.log2

theorem isPowerOfTwo_two_pow (k : Nat) : isPowerOfTwo (2 ^ k) = true := by
  rw [isPowerOfTwo, Nat.log2_two_pow]
  exact beq_self_eq_true _

theorem checkedNextPowerOfTwo_spec {n m : Nat} (h : checkedNextPowerOfTwo n = some m) :
    n ≤ m ∧ isPowerOfTwo m = true := by
  unfold checkedNextPowerOfTwo at h
  split at h
  · injection h with h
    subst h
    split
    · exact ⟨by assumption, isPowerOfTwo_two_pow 0⟩
    · rename_i hn
      have hlt : n - 1 < 2 ^ ((n - 1).log2 + 1) := Nat.lt_log2_self
      exact ⟨by omega, isPowerOfTwo_two_pow _⟩
  · cases h

namespace LinearFifo
variable {α : Type} {itemSize : Nat} {f f' : LinearFifo α} {xs : List α}

/-- The fifo has a list as its contents. -/
structure Contains (f : LinearFifo α) (xs : List α) : Prop where
  ring : Library.Ring.Holds f.buf f.head (xs.map some)
  position : Position f.buf f.head
  count : f.count = xs.length
  size : f.powersOfTwo = true → f.bufLen = 0 ∨ isPowerOfTwo f.bufLen = true

theorem Contains.length_le (h : f.Contains xs) : f.count ≤ f.bufLen := by
  have hle := h.ring.length_le
  rw [List.length_map, ← h.count] at hle
  exact hle

theorem Contains.sized (h : f.Contains xs) (htype : f'.type = f.type) (hlen : f'.bufLen = f.bufLen)
    (hpow : f'.powersOfTwo = true) : f'.bufLen = 0 ∨ isPowerOfTwo f'.bufLen = true := by
  have hlength : f'.buf.length = f.buf.length := hlen
  have hsame : f'.powersOfTwo = f.powersOfTwo := by rw [powersOfTwo, powersOfTwo, htype, hlength]
  rw [hlen]
  exact h.size (hsame ▸ hpow)

/-- A queue that has a place wraps by the remainder, whether it does so by a mask or not. -/
theorem Contains.wrapped (h : f.Contains xs) (hlen : f.bufLen ≠ 0) (i : Nat) : f.wrapped i = some (i % f.bufLen) := by
  unfold LinearFifo.wrapped
  rw [if_neg hlen]
  split
  · rename_i hpow
    rw [and_sub_one_of_isPowerOfTwo ((h.size hpow).resolve_left hlen)]
  · rfl

theorem Contains.head_lt (h : f.Contains xs) (hlen : f.bufLen ≠ 0) : f.head < f.bufLen :=
  h.position.resolve_right fun hnil => hlen (by rw [bufLen, hnil.1]; rfl)

theorem buf_ne_nil (hlen : f.bufLen ≠ 0) : f.buf ≠ [] := fun hnil => hlen (by rw [bufLen, hnil]; rfl)

/-- What the items of a queue are. -/
theorem Contains.peekItem (h : f.Contains xs) {i : Nat} (hi : i < f.count) : f.peekItem i = some xs[i]? := by
  have hlen : f.bufLen ≠ 0 := Nat.ne_of_gt (Nat.lt_of_lt_of_le (Nat.zero_lt_of_lt hi) h.length_le)
  have hi' : i < (xs.map some).length := by
    rw [List.length_map, ← h.count]
    exact hi
  have hget := h.ring.get hi'
  rw [LinearFifo.peekItem, h.wrapped hlen]
  show f.buf[(f.head + i) % f.buf.length]? = _
  rw [hget, List.getElem?_map, List.getElem?_eq_getElem (by simpa using hi')]
  rfl

/-! ### Discarding and reading -/

theorem Contains.discard (h : f.Contains xs) {n : Nat} (hn : n ≤ f.count)
    (hfine : f.bufLen = 0 → f.powersOfTwo = true) : ∃ f', f.discard n = some f' ∧ f'.Contains (xs.drop n) ∧
      f'.type = f.type ∧ f'.buf = f.buf := by
  by_cases hlen : f.bufLen = 0
  · have hhead : f.head = 0 := by
      rcases h.position with hlt | ⟨_, hhead⟩
      · rw [← LinearFifo.bufLen, hlen] at hlt
        cases hlt
      · exact hhead
    have hcount : f.count = 0 := Nat.le_zero.mp (hlen ▸ h.length_le)
    have hn : n = 0 := Nat.le_zero.mp (hcount ▸ hn)
    subst hn
    refine ⟨{f with head := f.head + 0 &&& (2 ^ 64 - 1), count := f.count - 0}, ?_, ?_, rfl, rfl⟩
    · rw [LinearFifo.discard, hfine hlen, if_pos rfl, if_pos hlen]
    · rw [hhead, Nat.add_zero, Nat.zero_and, Nat.sub_zero, List.drop_zero]
      have hsame : ({f with head := 0} : LinearFifo α) = f := by rw [← hhead]
      exact hsame ▸ h
  · have hsplit : xs.map some = (xs.take n).map some ++ (xs.drop n).map some := by
      rw [← List.map_append, List.take_append_drop]
    have hring := h.ring
    rw [hsplit] at hring
    have hlength : ((xs.take n).map some).length = n := by
      rw [List.length_map, List.length_take, ← h.count]
      exact Nat.min_eq_left hn
    have hadvance := hring.advance (buf_ne_nil hlen)
    rw [hlength] at hadvance
    refine ⟨{f with head := (f.head + n) % f.bufLen, count := f.count - n}, ?_, ⟨hadvance, ?_, ?_, h.size⟩, rfl, rfl⟩
    · unfold LinearFifo.discard
      simp only [if_neg hlen]
      split
      · rename_i hpow
        rw [and_sub_one_of_isPowerOfTwo ((h.size hpow).resolve_left hlen)]
      · rfl
    · exact Or.inl (Nat.mod_lt _ (Nat.pos_of_ne_zero hlen))
    · show f.count - n = _
      rw [List.length_drop, h.count]

/-- The first piece of the contents. -/
theorem Contains.readableSlice (h : f.Contains xs) :
    ∃ k, f.readableSlice 0 = some ((xs.take k).map some) ∧ (xs ≠ [] → 0 < k) := by
  by_cases hlen : f.bufLen = 0
  · have hhead : f.head = 0 := by
      rcases h.position with hlt | ⟨_, hhead⟩
      · rw [← LinearFifo.bufLen, hlen] at hlt
        cases hlt
      · exact hhead
    have hcount : f.count = 0 := Nat.le_zero.mp (hlen ▸ h.length_le)
    have hxs : xs = [] := List.length_eq_zero_iff.mp (h.count ▸ hcount)
    refine ⟨0, ?_, fun hne => absurd hxs hne⟩
    rw [LinearFifo.readableSlice, readableRange, hcount, hhead, hlen]
    simp [range]
  · have hlt := h.head_lt hlen
    refine ⟨Library.Ring.piece f.buf f.head (xs.map some).length, ?_, fun hne => ?_⟩
    · have htake := h.ring.take_piece
      rw [List.length_map, ← h.count, ← List.map_take] at htake
      have hrange : f.readableRange 0 = (f.head, min (f.head + f.count) f.bufLen) := by
        rw [readableRange, if_neg (Nat.not_lt_zero _), if_neg (by omega)]
        rfl
      rw [LinearFifo.readableSlice, hrange, range, if_pos ?_]
      · show some ((f.buf.take (min (f.head + f.count) f.buf.length)).drop f.head) = _
        rw [htake, List.length_map, ← h.count]
      · exact ⟨by show f.head ≤ min _ _; omega, Nat.min_le_right _ _⟩
    · have hpos : 0 < xs.length := List.length_pos_iff.mpr hne
      rw [Library.Ring.piece, List.length_map]
      have hbuf : f.head < f.buf.length := hlt
      omega

theorem Contains.readLoop {fuel n : Nat} (h : f.Contains xs) (hfuel : n ≤ fuel) :
    ∃ f', LinearFifo.readLoop fuel f n = some ((xs.take n).map some, f') ∧ f'.Contains (xs.drop n) := by
  induction fuel generalizing f xs n with
  | zero =>
    obtain rfl : n = 0 := Nat.le_zero.mp hfuel
    exact ⟨f, rfl, h⟩
  | succ fuel ih =>
    rw [LinearFifo.readLoop]
    by_cases hn : n = 0
    · subst hn
      exact ⟨f, rfl, h⟩
    · rw [if_neg hn]
      obtain ⟨k, hslice, hk⟩ := h.readableSlice
      rw [hslice]
      by_cases hxs : xs = []
      · subst hxs
        refine ⟨f, ?_, List.drop_nil.symm ▸ h⟩
        simp
      · have hk := hk hxs
        have hpos : 0 < xs.length := List.length_pos_iff.mpr hxs
        have hlength : ((xs.take k).map some).length = min k xs.length := by rw [List.length_map, List.length_take]
        have hempty : ((xs.take k).map some).isEmpty = false := by
          rw [List.isEmpty_eq_false_iff, ← List.length_pos_iff, hlength]
          omega
        simp only [hempty, hlength]
        obtain ⟨f₁, hdiscard, hcontains, -⟩ := h.discard (n := min (min k xs.length) n)
          (by rw [h.count]; omega) fun hlen => absurd (Nat.le_zero.mp (hlen ▸ h.length_le)) (by rw [h.count]; omega)
        obtain ⟨f₂, hrest, hf₂⟩ := ih hcontains (n := n - min (min k xs.length) n) (by omega)
        rw [hdiscard]
        simp only [hrest, Bool.false_eq_true, if_false, Option.map_some, Option.some.injEq, Prod.mk.injEq]
        refine ⟨f₂, ⟨?_, rfl⟩, ?_⟩
        · rw [← List.map_take, List.take_take, ← List.map_append]
          congr 1
          have hmin : min (min (min k xs.length) n) k = min (min k xs.length) n := by omega
          rw [hmin]
          conv => rhs; rw [← List.take_append_drop (min (min k xs.length) n) (xs.take n), List.take_take, List.drop_take]
          congr 2
          omega
        · rw [List.drop_drop] at hf₂
          have hsum : min (min k xs.length) n + (n - min (min k xs.length) n) = n := by omega
          rw [hsum] at hf₂
          exact hf₂

theorem Contains.read (h : f.Contains xs) (n : Nat) :
    ∃ f', f.read n = some ((xs.take n).map some, f') ∧ f'.Contains (xs.drop n) :=
  h.readLoop (Nat.le_refl n)

theorem Contains.readItem (h : f.Contains xs) :
    ∃ c f', f.readItem = some (c, f') ∧ c.toList = (xs.take 1).map some ∧ f'.Contains (xs.drop 1) := by
  unfold LinearFifo.readItem
  cases xs with
  | nil =>
    have hcount : f.count = 0 := h.count
    rw [if_pos hcount]
    exact ⟨none, f, rfl, rfl, h⟩
  | cons x xs =>
    have hcount : f.count = xs.length + 1 := h.count
    have hlen : f.bufLen ≠ 0 := Nat.ne_of_gt (Nat.lt_of_lt_of_le (by omega) h.length_le)
    obtain ⟨f', hdiscard, hcontains, -⟩ := h.discard (n := 1) (by omega) fun hzero => absurd hzero hlen
    have hget := h.ring.get (i := 0) (by rw [List.length_map, List.length_cons]; omega)
    have hmod : f.head % f.buf.length = f.head := Nat.mod_eq_of_lt (h.head_lt hlen)
    rw [Nat.add_zero, hmod, List.map_cons, List.getElem?_cons_zero] at hget
    rw [if_neg (by omega), hget, hdiscard]
    exact ⟨some (some x), f', rfl, rfl, hcontains⟩

/-! ### Realigning and growing -/

/-- The fifo may be realigned: its items are of a size that the scratch can take. -/
def Aligns (itemSize : Nat) (f : LinearFifo α) : Prop :=
  f.bufLen - f.head < f.count → 0 < itemSize ∧ itemSize ≤ scratchSize

variable {buf : List (Option α)} {size fuel offset : Nat} {src : List α}

theorem realignLoop_eq {tmpLen fuel head : Nat} (htmp : 0 < tmpLen) (hfuel : head ≤ fuel)
    (hhead : head ≤ buf.length) : realignLoop tmpLen fuel buf head = some (buf.rotate head) := by
  induction fuel generalizing buf head with
  | zero =>
    obtain rfl : head = 0 := Nat.le_zero.mp hfuel
    rw [realignLoop, List.rotate_zero]
  | succ fuel ih =>
    cases head with
    | zero => rw [realignLoop, List.rotate_zero]
    | succ head =>
      rw [realignLoop]
      have hn : min (head + 1) tmpLen ≤ buf.length := by omega
      have hcopy : copyWithin buf (min (head + 1) tmpLen) 0 (buf.length - min (head + 1) tmpLen) =
          some (buf.drop (min (head + 1) tmpLen) ++ buf.drop (buf.length - min (head + 1) tmpLen)) := by
        have hlength : (buf.drop (min (head + 1) tmpLen)).length = buf.length - min (head + 1) tmpLen := List.length_drop
        rw [copyWithin, if_pos ⟨by omega, by omega⟩, ← hlength, List.take_length, overwrite, List.take_zero,
          List.nil_append, hlength, Nat.zero_add]
      have hover : overwrite (buf.drop (min (head + 1) tmpLen) ++ buf.drop (buf.length - min (head + 1) tmpLen))
          (buf.length - min (head + 1) tmpLen) (buf.take (min (head + 1) tmpLen)) = buf.rotate (min (head + 1) tmpLen) := by
        have hlength : (buf.drop (min (head + 1) tmpLen)).length = buf.length - min (head + 1) tmpLen := List.length_drop
        have hrest : (buf.drop (min (head + 1) tmpLen) ++ buf.drop (buf.length - min (head + 1) tmpLen)).drop
            (buf.length - min (head + 1) tmpLen + (buf.take (min (head + 1) tmpLen)).length) = [] := by
          refine List.drop_eq_nil_of_le ?_
          simp only [List.length_append, List.length_drop, List.length_take]
          omega
        rw [overwrite, hrest, List.append_nil, ← hlength, List.take_left, List.rotate_eq_drop_append_take hn]
      have hlength : (buf.drop (min (head + 1) tmpLen) ++ buf.drop (buf.length - min (head + 1) tmpLen)).length =
          buf.length := by
        simp only [List.length_append, List.length_drop]
        omega
      simp only [hcopy, hlength, hover]
      rw [if_neg (by omega), ih (by omega) (by rw [List.length_rotate]; omega), List.rotate_rotate]
      congr 2
      omega

theorem Contains.realign (h : f.Contains xs) (haligns : f.Aligns itemSize) :
    ∃ f', f.realign itemSize = some f' ∧ f'.Contains xs ∧ f'.head = 0 ∧ f'.bufLen = f.bufLen ∧ f'.type = f.type := by
  have hcount : (xs.map some).length = f.count := by rw [List.length_map, h.count]
  have hposition : ∀ buf : List (Option α), buf.length = f.bufLen → Position buf 0 := by
    intro buf hbuf
    by_cases hlen : f.bufLen = 0
    · exact Or.inr ⟨List.length_eq_zero_iff.mp (hbuf.trans hlen), rfl⟩
    · exact Or.inl (by omega)
  have hle : f.head ≤ f.bufLen := by
    rcases h.position with hlt | ⟨_, hhead⟩
    · exact Nat.le_of_lt hlt
    · rw [hhead]
      exact Nat.zero_le _
  unfold LinearFifo.realign
  split
  · rename_i hstraight
    have hle' : f.head + f.count ≤ f.buf.length := by
      show f.head + f.count ≤ f.bufLen
      omega
    have hring := h.ring.moveDown (by rw [hcount]; exact hle')
    rw [hcount] at hring
    have hlength : (overwrite f.buf 0 ((f.buf.drop f.head).take f.count)).length = f.bufLen := by
      refine length_overwrite ?_
      simp only [List.length_take, List.length_drop]
      omega
    rw [copyWithin, if_pos ⟨hle', by omega⟩]
    exact ⟨_, rfl, ⟨hring, hposition _ hlength, h.count, h.sized rfl hlength⟩, rfl, hlength, rfl⟩
  · rename_i hwraps
    obtain ⟨hzero, hscratch⟩ := haligns (by omega)
    rw [if_neg (Nat.ne_of_gt hzero), realignLoop_eq (Nat.div_pos hscratch hzero) (Nat.le_refl _) hle]
    have hlength : (f.buf.rotate f.head).length = f.bufLen := List.length_rotate ..
    exact ⟨_, rfl, ⟨h.ring.rotate, hposition _ hlength, h.count, h.sized rfl hlength⟩, rfl, hlength, rfl⟩

/-- A fifo that is aligned may have another buffer that starts with the contents. -/
theorem Contains.with_buffer (h : f.Contains xs) (hhead : f.head = 0)
    (htake : buf.take f.count = f.buf.take f.count) (hle : f.count ≤ buf.length)
    (hsize : ({f with buf := buf} : LinearFifo α).powersOfTwo = true → buf.length = 0 ∨ isPowerOfTwo buf.length = true) :
    ({f with buf := buf} : LinearFifo α).Contains xs := by
  have hcount : (xs.map some).length = f.count := by rw [List.length_map, h.count]
  have hring := h.ring
  rw [hhead] at hring
  refine ⟨?_, ?_, h.count, hsize⟩
  · show Library.Ring.Holds buf f.head _
    rw [hhead]
    exact hring.of_prefix (by rw [hcount, htake]) (by rw [hcount]; exact hle)
  · show Position buf f.head
    rw [hhead]
    by_cases hlen : buf.length = 0
    · exact Or.inr ⟨List.length_eq_zero_iff.mp hlen, rfl⟩
    · exact Or.inl (Nat.pos_of_ne_zero hlen)

theorem length_realloc (buf : List (Option α)) (size : Nat) : (realloc buf size).length = size := by
  simp only [realloc, List.length_append, List.length_take, List.length_replicate]
  omega

theorem Contains.shrink (h : f.Contains xs) (hsize : f.count ≤ size)
    (hfine : f.isDynamic = true → (size = 0 ∨ isPowerOfTwo size = true) ∧ f.Aligns itemSize) :
    ∃ f', f.shrink itemSize size = some f' ∧ f'.Contains xs := by
  unfold LinearFifo.shrink
  split
  · rename_i hdynamic
    obtain ⟨hpow, haligns⟩ := hfine hdynamic
    obtain ⟨f₁, hrealign, hcontains, hhead, hlen, htype⟩ := h.realign haligns
    have hcount : f₁.count = f.count := hcontains.count.trans h.count.symm
    rw [hrealign]
    refine ⟨_, rfl, hcontains.with_buffer hhead ?_ ?_ fun _ => ?_⟩
    · have hle := hcontains.length_le
      rw [realloc, List.take_append_of_le_length, List.take_take]
      · congr 1
        omega
      · rw [List.length_take]
        show f₁.count ≤ min size f₁.bufLen
        omega
    · rw [length_realloc, hcount]
      exact hsize
    · rw [length_realloc]
      exact hpow
  · exact ⟨f, rfl, h⟩

/-- Whether a buffer of a size can be had. -/
def fitsTotal (f : LinearFifo α) (size : Nat) : Bool := size ≤ f.bufLen || f.isDynamic && size ≤ 2 ^ 63

/-- Whether some more items can be had. -/
def fitsUnused (f : LinearFifo α) (size : Nat) : Bool :=
  size ≤ f.writableLength || f.isDynamic && f.count + size ≤ 2 ^ 63

theorem Contains.ensureTotalCapacity (h : f.Contains xs) (hfine : f.isDynamic = true → f.bufLen < size → f.Aligns itemSize) :
    ∃ f', f.ensureTotalCapacity itemSize size = some (f.fitsTotal size, f') ∧ f'.Contains xs ∧
      (f.fitsTotal size = true → size ≤ f'.bufLen) := by
  unfold LinearFifo.ensureTotalCapacity fitsTotal
  by_cases hsize : size ≤ f.bufLen
  · rw [if_pos hsize, decide_eq_true hsize]
    exact ⟨f, rfl, h, fun _ => hsize⟩
  · rw [if_neg hsize, decide_eq_false hsize, Bool.false_or]
    cases hdynamic : f.isDynamic with
    | false => exact ⟨f, rfl, h, fun hfits => by cases hfits⟩
    | true =>
      obtain ⟨f₁, hrealign, hcontains, hhead, hlen, htype⟩ := h.realign (hfine hdynamic (by omega))
      rw [if_pos rfl, hrealign, Bool.true_and]
      simp only [Option.map_some]
      by_cases hmax : size ≤ 2 ^ 63
      · obtain ⟨newSize, hnew⟩ : ∃ newSize, checkedNextPowerOfTwo size = some newSize := by
          rw [checkedNextPowerOfTwo, if_pos hmax]
          exact ⟨_, rfl⟩
        obtain ⟨hle, hpow⟩ := checkedNextPowerOfTwo_spec hnew
        have hcount : f₁.count ≤ f₁.bufLen := hcontains.length_le
        have htake : (f₁.buf.take f₁.count).length = f₁.count := List.length_take_of_le hcount
        have hlength : (f₁.buf.take f₁.count ++ List.replicate (newSize - f₁.count) none).length = newSize := by
          rw [List.length_append, htake, List.length_replicate]
          omega
        have hsame : ({f₁ with buf := f₁.buf.take f₁.count ++ List.replicate (newSize - f₁.count) none, head := 0} :
            LinearFifo α) = {f₁ with buf := f₁.buf.take f₁.count ++ List.replicate (newSize - f₁.count) none} := by
          rw [← hhead]
        rw [hnew, decide_eq_true hmax]
        simp only [hsame]
        refine ⟨_, rfl, hcontains.with_buffer hhead ?_ ?_ fun _ => Or.inr (hlength.symm ▸ hpow), fun _ => ?_⟩
        · rw [List.take_append_of_le_length (Nat.le_of_eq htake.symm), List.take_take, Nat.min_self]
        · rw [hlength]
          omega
        · show size ≤ (_ ++ _ : List (Option α)).length
          rw [hlength]
          exact hle
      · rw [checkedNextPowerOfTwo, if_neg hmax, decide_eq_false hmax]
        exact ⟨f₁, rfl, hcontains, fun hfits => by cases hfits⟩

theorem Contains.ensureUnusedCapacity (h : f.Contains xs)
    (hfine : f.isDynamic = true → f.writableLength < size → f.Aligns itemSize) :
    ∃ f', f.ensureUnusedCapacity itemSize size = some (f.fitsUnused size, f') ∧ f'.Contains xs ∧
      (f.fitsUnused size = true → size ≤ f'.writableLength) := by
  have hle := h.length_le
  have hwritable : f.writableLength = f.bufLen - f.count := rfl
  unfold LinearFifo.ensureUnusedCapacity
  by_cases hsize : size ≤ f.writableLength
  · rw [if_pos hsize, fitsUnused, decide_eq_true hsize]
    exact ⟨f, rfl, h, fun _ => hsize⟩
  · rw [if_neg hsize]
    have htotal : ¬ f.count + size ≤ f.bufLen := by omega
    have hfits : f.fitsUnused size = f.fitsTotal (f.count + size) := by
      rw [fitsUnused, fitsTotal, decide_eq_false hsize, decide_eq_false htotal]
    split
    · have hfine : f.isDynamic = true → f.bufLen < f.count + size → f.Aligns itemSize :=
        fun hdynamic _ => hfine hdynamic (by omega)
      obtain ⟨f', hensure, hcontains, hroom⟩ := h.ensureTotalCapacity hfine
      refine ⟨f', by rw [hfits]; exact hensure, hcontains, fun htrue => ?_⟩
      have hcount : f'.count = f.count := hcontains.count.trans h.count.symm
      have hroom := hroom (hfits ▸ htrue)
      show size ≤ f'.bufLen - f'.count
      omega
    · rename_i hmax
      have hfalse : f.fitsUnused size = false := by
        have hover : ¬ f.count + size ≤ 2 ^ 63 := by omega
        rw [fitsUnused, decide_eq_false hsize, decide_eq_false hover, Bool.and_false]
        rfl
      rw [hfalse]
      exact ⟨f, rfl, h, fun hfits => by cases hfits⟩

/-! ### Writing -/

theorem writableRange_eq (f : LinearFifo α) : f.writableRange =
    (Library.Ring.tail f.buf f.head f.count, Library.Ring.tail f.buf f.head f.count + Library.Ring.room f.buf f.head f.count) := by
  unfold writableRange Library.Ring.tail Library.Ring.room
  by_cases hlt : f.head + f.count < f.buf.length
  · rw [if_pos hlt, if_pos hlt, if_pos (show f.head + f.count < f.bufLen from hlt)]
    congr 1
    show f.buf.length = _
    omega
  · rw [if_neg hlt, if_neg hlt, if_neg (show ¬ f.head + f.count < f.bufLen from hlt)]
    rfl

/-- The place behind the contents, in the buffer. -/
theorem Contains.tail_room (h : f.Contains xs) :
    Library.Ring.tail f.buf f.head f.count + Library.Ring.room f.buf f.head f.count ≤ f.bufLen ∧
      (f.count < f.bufLen → 0 < Library.Ring.room f.buf f.head f.count) := by
  have hle := h.length_le
  have hlen : f.bufLen = f.buf.length := rfl
  unfold Library.Ring.tail Library.Ring.room
  rcases h.position with hlt | ⟨hnil, hhead⟩
  · split <;> omega
  · have hzero : f.buf.length = 0 := by rw [hnil]; rfl
    split <;> omega

/-- The fifo with items written behind its contents, in one piece. -/
def put (f : LinearFifo α) (src : List α) : LinearFifo α :=
  update {f with buf := overwrite f.buf (Library.Ring.tail f.buf f.head f.count) (src.map some)} src.length

theorem Contains.bufLen_put (h : f.Contains xs)
    (hroom : src.length ≤ Library.Ring.room f.buf f.head f.count) : (f.put src).bufLen = f.bufLen := by
  have hbounds := h.tail_room.1
  refine length_overwrite ?_
  rw [List.length_map]
  show _ ≤ f.bufLen
  omega

theorem Contains.put (h : f.Contains xs) (hroom : src.length ≤ Library.Ring.room f.buf f.head f.count) :
    (f.put src).Contains (xs ++ src) := by
  have hcount : (xs.map some).length = f.count := by rw [List.length_map, h.count]
  have hlength := h.bufLen_put hroom
  have hroom : (src.map some).length ≤ Library.Ring.room f.buf f.head (xs.map some).length := by
    rw [List.length_map, hcount]
    exact hroom
  have hring := h.ring.write h.position hroom
  rw [hcount, ← List.map_append] at hring
  refine ⟨hring, ?_, ?_, h.sized rfl hlength⟩
  · rcases h.position with hlt | ⟨hnil, hhead⟩
    · exact Or.inl (Nat.lt_of_lt_of_eq hlt hlength.symm)
    · refine Or.inr ⟨List.length_eq_zero_iff.mp (hlength.trans ?_), hhead⟩
      rw [bufLen, hnil]
      rfl
  · show f.count + src.length = _
    rw [List.length_append, h.count]

theorem Contains.writeLoop (h : f.Contains xs) (hfuel : src.length ≤ fuel) (hroom : src.length ≤ f.writableLength) :
    ∃ f', LinearFifo.writeLoop fuel f src = some f' ∧ f'.Contains (xs ++ src) := by
  induction fuel generalizing f xs src with
  | zero =>
    obtain rfl : src = [] := List.length_eq_zero_iff.mp (Nat.le_zero.mp hfuel)
    exact ⟨f, rfl, (List.append_nil xs).symm ▸ h⟩
  | succ fuel ih =>
    cases src with
    | nil => exact ⟨f, rfl, (List.append_nil xs).symm ▸ h⟩
    | cons a src =>
      obtain ⟨hbounds, hpos⟩ := h.tail_room
      have hlen : f.bufLen = f.buf.length := rfl
      have hwritable : f.writableLength = f.bufLen - f.count := rfl
      rw [List.length_cons] at hroom hfuel
      have hpos := hpos (by omega)
      have hrange : range f.buf f.writableRange.1 f.writableRange.2 =
          some ((f.buf.take f.writableRange.2).drop f.writableRange.1) := by
        rw [range, if_pos]
        rw [writableRange_eq]
        exact ⟨Nat.le_add_right _ _, hbounds⟩
      have hlength : ((f.buf.take f.writableRange.2).drop f.writableRange.1).length =
          Library.Ring.room f.buf f.head f.count := by
        rw [writableRange_eq, List.length_drop, List.length_take]
        show min (_ + _) _ - _ = _
        omega
      generalize hn : min (Library.Ring.room f.buf f.head f.count) (a :: src).length = n
      rw [List.length_cons] at hn
      have htake : ((a :: src).take n).length = n := by
        rw [List.length_take, List.length_cons]
        omega
      have hcopy : copyFrom f.buf f.writableRange.1 (((a :: src).take n).map some) =
          some (overwrite f.buf (Library.Ring.tail f.buf f.head f.count) (((a :: src).take n).map some)) := by
        rw [copyFrom, writableRange_eq, if_pos]
        rw [List.length_map, htake]
        show _ ≤ f.bufLen
        show Library.Ring.tail f.buf f.head f.count + n ≤ f.bufLen
        omega
      have hsmall : ((a :: src).take n).length ≤ Library.Ring.room f.buf f.head f.count := by
        rw [htake]
        omega
      have hwritten := h.put hsmall
      have hdrop : ((a :: src).drop n).length = src.length + 1 - n := by rw [List.length_drop, List.length_cons]
      have hfuel' : ((a :: src).drop n).length ≤ fuel := by omega
      have hroom' : ((a :: src).drop n).length ≤ (f.put ((a :: src).take n)).writableLength := by
        rw [writableLength, h.bufLen_put hsmall, hdrop]
        show _ ≤ f.bufLen - (f.count + ((a :: src).take n).length)
        omega
      obtain ⟨f', hrest, hcontains⟩ := ih hwritten hfuel' hroom'
      rw [List.append_assoc, List.take_append_drop] at hcontains
      refine ⟨f', ?_, hcontains⟩
      rw [LinearFifo.writeLoop, hrange]
      rw [LinearFifo.put, htake] at hrest
      simp only [hlength, List.length_cons, hn, hcopy]
      exact hrest

/-- The condition under which a call that needs so many more places may realign. -/
def AlignsUnused (itemSize : Nat) (f : LinearFifo α) (size : Nat) : Prop :=
  f.isDynamic = true → f.writableLength < size → f.Aligns itemSize

theorem Contains.write (h : f.Contains xs) (hfine : f.AlignsUnused itemSize src.length) :
    ∃ f', f.write itemSize src = some (f.fitsUnused src.length, f') ∧
      f'.Contains (if f.fitsUnused src.length then xs ++ src else xs) := by
  obtain ⟨f₁, hensure, hcontains, hroom⟩ := h.ensureUnusedCapacity hfine
  rw [LinearFifo.write, hensure]
  cases hfits : f.fitsUnused src.length with
  | false => exact ⟨f₁, rfl, hcontains⟩
  | true =>
    obtain ⟨f', hwrite, hcontains'⟩ := hcontains.writeLoop (Nat.le_refl _) (hroom hfits)
    exact ⟨f', by simp only [hwrite, Option.map_some], hcontains'⟩

theorem Contains.tail_eq (h : f.Contains xs) (hroom : f.count < f.bufLen) :
    f.wrapped (f.head + f.count) = some (Library.Ring.tail f.buf f.head f.count) := by
  have hlen : f.bufLen = f.buf.length := rfl
  have hhead := h.head_lt (by omega)
  rw [h.wrapped (by omega), Library.Ring.tail, ← hlen]
  congr 1
  split
  · rename_i hlt
    exact Nat.mod_eq_of_lt hlt
  · rename_i hlt
    rw [Nat.mod_eq_sub_mod (by omega), Nat.mod_eq_of_lt (by omega)]

theorem Contains.writeItem {item : α} (h : f.Contains xs) (hfine : f.AlignsUnused itemSize 1) :
    ∃ f', f.writeItem itemSize item = some (f.fitsUnused 1, f') ∧
      f'.Contains (if f.fitsUnused 1 then xs ++ [item] else xs) := by
  obtain ⟨f₁, hensure, hcontains, hroom⟩ := h.ensureUnusedCapacity hfine
  rw [LinearFifo.writeItem, hensure]
  cases hfits : f.fitsUnused 1 with
  | false => exact ⟨f₁, rfl, hcontains⟩
  | true =>
    have hroom := hroom hfits
    have hwritable : f₁.writableLength = f₁.bufLen - f₁.count := rfl
    have hlen : f₁.bufLen = f₁.buf.length := rfl
    obtain ⟨hbounds, hpos⟩ := hcontains.tail_room
    have hpos := hpos (by omega)
    have hcopy : copyFrom f₁.buf (Library.Ring.tail f₁.buf f₁.head f₁.count) [some item] =
        some (overwrite f₁.buf (Library.Ring.tail f₁.buf f₁.head f₁.count) [some item]) := by
      rw [copyFrom, if_pos]
      rw [List.length_singleton]
      omega
    have hsmall : [item].length ≤ Library.Ring.room f₁.buf f₁.head f₁.count := hpos
    refine ⟨_, ?_, hcontains.put hsmall⟩
    simp only [writeItemAssumeCapacity, hcontains.tail_eq (by omega), hcopy, Option.map_some]
    rfl

theorem Contains.writableWithSize {data : List α} (h : f.Contains xs)
    (hfine : f.AlignsUnused itemSize size) (hdata : data.length ≤ size) :
    ∃ f', f.writableWithSize itemSize size data = some (f.fitsUnused size, f') ∧
      f'.Contains (if f.fitsUnused size then xs ++ data else xs) := by
  obtain ⟨f₁, hensure, hcontains, hroom⟩ := h.ensureUnusedCapacity hfine
  rw [LinearFifo.writableWithSize, hensure]
  cases hfits : f.fitsUnused size with
  | false => exact ⟨f₁, rfl, hcontains⟩
  | true =>
    have hroom := hroom hfits
    have hwritable : f₁.writableLength = f₁.bufLen - f₁.count := rfl
    have hlen : f₁.bufLen = f₁.buf.length := rfl
    -- contents that are wrapped have all the free places in one piece
    have haligned : ∃ f₂, (if f₁.writableRange.2 - f₁.writableRange.1 < size then f₁.realign itemSize else some f₁) =
        some f₂ ∧ f₂.Contains xs ∧ size ≤ Library.Ring.room f₂.buf f₂.head f₂.count := by
      rw [writableRange_eq]
      split
      · rename_i hlt
        have haligns : f₁.Aligns itemSize := by
          intro hwraps
          unfold Library.Ring.room at hlt
          split at hlt <;> omega
        obtain ⟨f₂, hrealign, hcontains₂, hhead, hlen₂, -⟩ := hcontains.realign haligns
        refine ⟨f₂, hrealign, hcontains₂, ?_⟩
        have hcount : f₂.count = f₁.count := hcontains₂.count.trans hcontains.count.symm
        have hbuf : f₂.bufLen = f₂.buf.length := rfl
        unfold Library.Ring.room
        split <;> omega
      · exact ⟨f₁, rfl, hcontains, by omega⟩
    obtain ⟨f₂, haligned, hcontains₂, hroom₂⟩ := haligned
    have hbounds := hcontains₂.tail_room.1
    refine ⟨_, ?_, hcontains₂.put (Nat.le_trans hdata hroom₂)⟩
    simp only [haligned]
    rw [writableRange_eq, if_pos ⟨Nat.add_le_add_left hroom₂ _, hbounds, hdata⟩]
    rfl

/-! ### Putting back and taking out -/

theorem overwrite_nil {β : Type} (l : List β) : overwrite l 0 [] = l := rfl

/-- What starts at `offset` of contents of one piece or two. -/
theorem readableRange_fst (hcount : offset ≤ f.count) (hhead : f.head < f.bufLen)
    (hoffset : offset ≤ f.bufLen) : (f.readableRange offset).1 = (f.head + offset) % f.bufLen := by
  rw [readableRange, if_neg (Nat.not_lt.mpr hcount)]
  split
  · rename_i hwraps
    rw [Nat.mod_eq_sub_mod hwraps, Nat.mod_eq_of_lt (by omega)]
  · rename_i hlt
    exact (Nat.mod_eq_of_lt (by omega)).symm

/-- A list that may start with places not written is read by its first piece. -/
theorem readableSlice_eq {ys : List (Option α)} (hring : Library.Ring.Holds f.buf f.head ys) (hcount : f.count = ys.length)
    (hhead : f.head < f.bufLen) : f.readableSlice 0 = some (ys.take (Library.Ring.piece f.buf f.head ys.length)) := by
  have hrange : f.readableRange 0 = (f.head, min (f.head + f.count) f.bufLen) := by
    rw [readableRange, if_neg (Nat.not_lt_zero _), if_neg (by omega)]
    rfl
  rw [LinearFifo.readableSlice, hrange, range, if_pos ⟨by show f.head ≤ min _ _; omega, Nat.min_le_right _ _⟩, ← hring.take_piece,
    ← hcount]
  rfl

theorem Contains.ungetAssumeCapacity (h : f.Contains xs) (hlen : f.bufLen ≠ 0)
    (hroom : src.length ≤ f.writableLength) : ∃ f', f.ungetAssumeCapacity src = some f' ∧ f'.Contains (src ++ xs) := by
  have hwritable : f.writableLength = f.bufLen - f.count := rfl
  have hbuf : f.bufLen = f.buf.length := rfl
  have hle := h.length_le
  have hxs : (xs.map some).length = f.count := by rw [List.length_map, h.count]
  have hfits : src.length + (xs.map some).length ≤ f.buf.length := by omega
  obtain ⟨bs, hbs, hring⟩ := h.ring.rewind h.position (buf_ne_nil hlen) hfits
  obtain ⟨g, hg⟩ : ∃ g : LinearFifo α,
      g = {f with head := (f.head + (f.bufLen - src.length)) % f.bufLen, count := f.count + src.length} := ⟨_, rfl⟩
  have hrewind : f.rewind src.length = some g := by rw [rewind, h.wrapped hlen, hg]; rfl
  have hring : Library.Ring.Holds g.buf g.head (bs ++ xs.map some) := by rw [hg]; exact hring
  have hglen : g.bufLen = f.bufLen := by rw [hg]; rfl
  have hgbuf : g.bufLen = g.buf.length := rfl
  have hgcount : g.count = f.count + src.length := by rw [hg]
  have hgtype : g.type = f.type := by rw [hg]
  have hghead : g.head < g.bufLen := by
    rw [hglen, hg]
    exact Nat.mod_lt _ (Nat.pos_of_ne_zero hlen)
  have hcount : g.count = (bs ++ xs.map some).length := by
    rw [List.length_append, hbs, hxs]
    omega
  have hslice := readableSlice_eq hring hcount hghead
  have hitems : (src.map some).length = bs.length := by rw [List.length_map, hbs]
  have hreplace := hring.replace (Or.inl hghead) hitems
  obtain ⟨p, hp⟩ : ∃ p, Library.Ring.piece g.buf g.head (bs ++ xs.map some).length = p := ⟨_, rfl⟩
  have hpiece : p = min (g.head + g.count) g.bufLen - g.head := by
    rw [← hp, hcount]
    rfl
  have hlength : ((bs ++ xs.map some).take p).length = p := by
    rw [List.length_take, ← hcount]
    omega
  rw [hp] at hslice hreplace
  simp only [List.length_map] at hreplace
  obtain ⟨n, hn⟩ : ∃ n, min p src.length = n := ⟨_, rfl⟩
  rw [hn] at hreplace
  have htake : ((src.map some).take n).length = n := by
    rw [List.length_take, List.length_map]
    omega
  have hfirst : copyFrom g.buf (g.readableRange 0).1 ((src.take n).map some) =
      some (overwrite g.buf g.head ((src.map some).take n)) := by
    rw [readableRange_fst (Nat.zero_le _) hghead (Nat.zero_le _), Nat.add_zero, Nat.mod_eq_of_lt hghead, List.map_take,
      copyFrom, if_pos (by rw [htake]; omega)]
  have hlength₁ : (overwrite g.buf g.head ((src.map some).take n)).length = g.bufLen :=
    length_overwrite (by rw [htake]; omega)
  -- the second piece is written too where there is one, and is empty otherwise
  have hsecond : ∃ f', (if src.length > p then
        (copyFrom (overwrite g.buf g.head ((src.map some).take n))
          (readableRange {g with buf := overwrite g.buf g.head ((src.map some).take n)} p).1 ((src.drop n).map some)).map
          fun buf => ({g with buf := buf} : LinearFifo α)
      else some {g with buf := overwrite g.buf g.head ((src.map some).take n)}) = some f' ∧
      f' = {g with buf := overwrite (overwrite g.buf g.head ((src.map some).take n)) 0 ((src.map some).drop n)} := by
    split
    · rename_i hmore
      have hstart : (readableRange {g with buf := overwrite g.buf g.head ((src.map some).take n)} p).1 = 0 := by
        have hzero : (g.head + p) % g.bufLen = 0 := by
          have hsum : g.head + p = g.bufLen := by omega
          rw [hsum, Nat.mod_self]
        rw [readableRange_fst (by show p ≤ g.count; omega) (by show g.head < List.length _; rw [hlength₁]; exact hghead)
          (by show p ≤ List.length _; rw [hlength₁]; omega)]
        show (g.head + p) % List.length _ = 0
        rw [hlength₁]
        exact hzero
      refine ⟨_, ?_, rfl⟩
      rw [hstart, copyFrom, if_pos, List.map_drop]
      · rfl
      · rw [hlength₁, List.length_map, List.length_drop]
        omega
    · have hrest : (src.map some).drop n = [] := List.drop_eq_nil_of_le (by rw [List.length_map]; omega)
      rw [hrest, overwrite_nil]
      exact ⟨_, rfl, rfl⟩
  obtain ⟨f', hsecond, hf'⟩ := hsecond
  have hlength₂ : f'.bufLen = f.bufLen := by
    rw [hf', ← hglen, ← hlength₁]
    refine length_overwrite ?_
    rw [hlength₁, List.length_drop, List.length_map]
    omega
  refine ⟨f', ?_, ?_, ?_, ?_, h.sized (by rw [hf', ← hgtype]) hlength₂⟩
  · rw [LinearFifo.ungetAssumeCapacity, hrewind]
    simp only [hslice, hlength, hn, hfirst]
    exact hsecond
  · rw [hf', List.map_append]
    exact hreplace
  · have hhead : f'.head = g.head := by rw [hf']
    refine Or.inl ?_
    show f'.head < f'.bufLen
    rw [hhead, hlength₂, ← hglen]
    exact hghead
  · rw [hf', List.length_append]
    show g.count = _
    rw [hgcount, h.count, Nat.add_comm]

theorem Contains.unget (h : f.Contains xs) (hfine : f.AlignsUnused itemSize src.length) (hempty : f.bufLen = 0 → src ≠ []) :
    ∃ f', f.unget itemSize src = some (f.fitsUnused src.length, f') ∧
      f'.Contains (if f.fitsUnused src.length then src ++ xs else xs) := by
  obtain ⟨f₁, hensure, hcontains, hroom⟩ := h.ensureUnusedCapacity hfine
  rw [LinearFifo.unget, hensure]
  cases hfits : f.fitsUnused src.length with
  | false => exact ⟨f₁, rfl, hcontains⟩
  | true =>
    have hroom := hroom hfits
    have hwritable : f₁.writableLength = f₁.bufLen - f₁.count := rfl
    have hlen : f₁.bufLen ≠ 0 := by
      cases src with
      | nil =>
        have hsame : f₁ = f := by
          rw [LinearFifo.ensureUnusedCapacity, List.length_nil, if_pos (Nat.zero_le _)] at hensure
          injection hensure with hensure
          exact (congrArg Prod.snd hensure).symm
        rw [hsame]
        exact fun hzero => hempty hzero rfl
      | cons a src =>
        rw [List.length_cons] at hroom
        omega
    obtain ⟨f', hunget, hcontains'⟩ := hcontains.ungetAssumeCapacity hlen hroom
    exact ⟨f', by simp only [hunget, Option.map_some], hcontains'⟩

theorem length_shiftDown {buf buf' : List (Option α)} {start stop : Nat} (h : shiftDown buf start stop = some buf') :
    buf'.length = buf.length := by
  unfold shiftDown at h
  split at h
  · injection h with h
    subst h
    simp only [onRange, List.length_append, length_shiftDownOne, List.length_take, List.length_drop]
    omega
  · cases h

/-- Contents that are wrapped, and where. -/
theorem Contains.wraps (h : f.Contains xs) (hwraps : f.bufLen - f.head < f.count) :
    ∃ front gap back : List (Option α), f.buf = front ++ gap ++ back ∧ xs.map some = back ++ front ∧
      f.head = front.length + gap.length ∧ front ≠ [] := by
  have hlen : f.bufLen = f.buf.length := rfl
  have hcount : f.count = (xs.map some).length := by rw [List.length_map, h.count]
  rcases h.ring with ⟨pre, post, hbuf, hhead⟩ | ⟨front, gap, back, hbuf, hxs, hhead⟩
  · have hlength := congrArg List.length hbuf
    simp only [List.length_append] at hlength
    omega
  · refine ⟨front, gap, back, hbuf, hxs, hhead, fun hnil => ?_⟩
    have hlength := congrArg List.length hbuf
    rw [hxs, hnil] at hcount
    simp only [hnil, List.length_append, List.length_nil] at hlength hhead hcount
    omega

/-! #### Removing an item -/

theorem shiftDown_eq (buf : List (Option α)) (start stop : Nat) (hle : start ≤ stop) (hstop : stop ≤ buf.length) :
    shiftDown buf start stop = some (onRange shiftDownOne buf start stop) := by
  unfold shiftDown
  exact if_pos ⟨hle, hstop⟩

theorem eraseIdx_split (h : offset < xs.length) :
    ∃ as x bs, xs = as ++ x :: bs ∧ as.length = offset ∧ xs.eraseIdx offset = as ++ bs := by
  have hlength : (xs.take offset).length = offset := List.length_take_of_le (Nat.le_of_lt h)
  have hsplit : xs = xs.take offset ++ xs[offset] :: xs.drop (offset + 1) := by
    rw [← List.drop_eq_getElem_cons h, List.take_append_drop]
  exact ⟨xs.take offset, xs[offset], xs.drop (offset + 1), hsplit, hlength, List.eraseIdx_eq_take_drop_succ ..⟩

section Removing
variable {as bs : List α} {x : α} {front gap back : List (Option α)}

/-- A buffer that holds the items before one and behind it -/
def HoldsRest (f : LinearFifo α) (as bs : List α) (buf : List (Option α)) : Prop :=
  buf.length = f.bufLen ∧ Library.Ring.Holds buf f.head ((as ++ bs).map some)

theorem Contains.removed (h : f.Contains (as ++ x :: bs)) (hhead : f.head < f.bufLen) {buf : List (Option α)}
    (hbuf : f.HoldsRest as bs buf) :
    ({f with buf := buf, count := f.count - 1} : LinearFifo α).Contains (as ++ bs) := by
  have hcount := h.count
  refine ⟨hbuf.2, Or.inl (Nat.lt_of_lt_of_eq hhead hbuf.1.symm), ?_, h.sized rfl hbuf.1⟩
  show f.count - 1 = _
  rw [hcount]
  simp only [List.length_append, List.length_cons]
  omega

theorem Contains.remove_straight (h : f.Contains (as ++ x :: bs)) (hhead : f.head < f.bufLen)
    (hstraight : f.bufLen - f.head ≥ f.count) :
    ∃ buf, shiftDown f.buf (f.head + as.length) f.bufLen = some buf ∧ f.HoldsRest as bs buf := by
  have hcount := h.count
  have hbuf : f.bufLen = f.buf.length := rfl
  have hring := h.ring
  rw [List.length_append, List.length_cons] at hcount
  rw [List.map_append, List.map_cons] at hring
  have hremoved := hring.remove_straight (by
    simp only [List.length_append, List.length_cons, List.length_map]
    omega)
  rw [List.length_map, ← List.map_append] at hremoved
  have hshift := shiftDown_eq f.buf (f.head + as.length) f.bufLen (by omega) (Nat.le_refl _)
  exact ⟨_, hshift, length_shiftDown hshift, hremoved⟩

/-- The item is in the front of the buffer, with those behind it. -/
theorem Contains.remove_front (hsplit : f.buf = front ++ gap ++ back) (hfirst : f.head = front.length + gap.length)
    (hlist : as.map some ++ some x :: bs.map some = back ++ front) (hfront : back.length ≤ as.length) :
    ∃ buf, shiftDown f.buf (as.length - back.length) front.length = some buf ∧ f.HoldsRest as bs buf := by
  have hlength := congrArg List.length hsplit
  have hlengths := congrArg List.length hlist
  simp only [List.length_append, List.length_cons, List.length_map] at hlength hlengths
  obtain ⟨as', hasEq, hfrontEq⟩ : ∃ as', as.map some = back ++ as' ∧ front = as' ++ some x :: bs.map some := by
    rcases List.append_eq_append_iff.mp hlist with ⟨rest, hback', hrest⟩ | ⟨rest, hback', hrest⟩
    · have hlengthBack := congrArg List.length hback'
      rw [List.length_append, List.length_map] at hlengthBack
      have hnil : rest = [] := List.length_eq_zero_iff.mp (by omega)
      subst hnil
      exact ⟨[], by rw [hback', List.append_nil, List.append_nil], hrest.symm⟩
    · exact ⟨rest, hback', hrest⟩
  have hremoved := Library.Ring.Holds.remove_front hsplit hfirst hfrontEq
  have hlist' : back ++ as' ++ bs.map some = (as ++ bs).map some := by rw [List.map_append, hasEq]
  have hplace : as'.length = as.length - back.length := by
    have hlengthAs := congrArg List.length hasEq
    rw [List.length_append, List.length_map] at hlengthAs
    omega
  rw [hplace, hlist'] at hremoved
  have hshift := shiftDown_eq f.buf (as.length - back.length) front.length (by omega) (by omega)
  exact ⟨_, hshift, length_shiftDown hshift, hremoved⟩

/-- The item is in the back of the buffer, and the first one of the front takes the last place there. -/
theorem Contains.remove_back {y : Option α} (hsplit : f.buf = y :: front ++ gap ++ back)
    (hfirst : f.head = (y :: front).length + gap.length)
    (hlist : as.map some ++ some x :: bs.map some = back ++ y :: front) (hback : as.length < back.length) :
    ∃ shifted buf, shiftDown f.buf (f.head + as.length) f.bufLen = some shifted ∧
      shiftDown (overwrite shifted (f.bufLen - 1) [y]) 0 (y :: front).length = some buf ∧ f.HoldsRest as bs buf := by
  have hbuf : f.bufLen = f.buf.length := rfl
  have hlength := congrArg List.length hsplit
  simp only [List.length_append, List.length_cons] at hlength hfirst
  obtain ⟨bs', hbackEq, hbs⟩ : ∃ bs', back = as.map some ++ some x :: bs' ∧ bs.map some = bs' ++ y :: front := by
    rcases List.append_eq_append_iff.mp hlist with ⟨rest, hback', hrest⟩ | ⟨rest, hback', -⟩
    · cases rest with
      | nil =>
        rw [hback', List.append_nil, List.length_map] at hback
        exact absurd hback (Nat.lt_irrefl _)
      | cons z bs' =>
        rw [List.cons_append, List.cons.injEq] at hrest
        exact ⟨bs', by rw [hback', ← hrest.1], hrest.2⟩
    · have hlengthBack := congrArg List.length hback'
      rw [List.length_map, List.length_append] at hlengthBack
      omega
  have hremoved := Library.Ring.Holds.remove_back hsplit hfirst hbackEq
  have hlist' : as.map some ++ bs' ++ y :: front = (as ++ bs).map some := by
    rw [List.map_append, hbs, List.append_assoc]
  rw [List.length_map, hlist'] at hremoved
  have hshift := shiftDown_eq f.buf (f.head + as.length) f.bufLen (by omega) (Nat.le_refl _)
  have hover : (overwrite (onRange shiftDownOne f.buf (f.head + as.length) f.bufLen) (f.bufLen - 1) [y]).length = f.bufLen := by
    have hlengthShift : (onRange shiftDownOne f.buf (f.head + as.length) f.bufLen).length = f.bufLen := length_shiftDown hshift
    rw [length_overwrite (by rw [List.length_singleton]; omega), hlengthShift]
  have hshift' := shiftDown_eq _ 0 (y :: front).length (Nat.zero_le _)
    (by rw [hover, List.length_cons]; omega)
  exact ⟨_, _, hshift, hshift', (length_shiftDown hshift').trans hover, hremoved⟩

end Removing

theorem Contains.orderedRemoveItem (h : f.Contains xs) (hoffset : offset < f.count) :
    ∃ f', f.orderedRemoveItem offset = some f' ∧ f'.Contains (xs.eraseIdx offset) := by
  have hle := h.length_le
  have hlen : f.bufLen ≠ 0 := by omega
  have hhead := h.head_lt hlen
  unfold LinearFifo.orderedRemoveItem
  by_cases hzero : offset = 0
  · obtain ⟨f', hdiscard, hcontains, -⟩ := h.discard (n := 1) (by omega) fun hzero => absurd hzero hlen
    rw [if_pos hzero, hzero, List.eraseIdx_zero, ← List.drop_one]
    exact ⟨f', hdiscard, hcontains⟩
  · rw [if_neg hzero]
    obtain ⟨as, x, bs, rfl, rfl, herase⟩ := eraseIdx_split (h.count ▸ hoffset)
    rw [herase]
    by_cases hstraight : f.bufLen - f.head ≥ f.count
    · obtain ⟨buf, hshift, hrest⟩ := h.remove_straight hhead hstraight
      rw [if_pos hstraight, hshift]
      exact ⟨_, rfl, h.removed hhead hrest⟩
    · rw [if_neg hstraight, h.wrapped hlen]
      obtain ⟨front, gap, back, hsplit, hlist, hfirst, hfront⟩ := h.wraps (by omega)
      have hbuf : f.bufLen = f.buf.length := rfl
      have hcount := h.count
      have hlength := congrArg List.length hsplit
      have hlengths := congrArg List.length hlist
      simp only [List.length_append, List.length_map, ← hcount] at hlength hlengths
      have hwrapLen : f.head + f.count - f.bufLen = front.length := by omega
      rw [List.map_append, List.map_cons] at hlist
      simp only [hwrapLen]
      by_cases hback : as.length < back.length
      · have hindex : (f.head + as.length) % f.bufLen = f.head + as.length := Nat.mod_eq_of_lt (by omega)
        cases front with
        | nil => exact absurd rfl hfront
        | cons y front =>
          obtain ⟨shifted, buf, hshift, hshift', hrest⟩ := Contains.remove_back hsplit hfirst hlist hback
          have hwrap : f.buf[0]? = some y := by
            rw [hsplit]
            rfl
          rw [hindex, if_neg (by omega), hwrap, hshift]
          simp only [hshift']
          exact ⟨_, rfl, h.removed hhead hrest⟩
      · have hindex : (f.head + as.length) % f.bufLen = as.length - back.length := by
          rw [Nat.mod_eq_sub_mod (by omega), Nat.mod_eq_of_lt (by omega)]
          omega
        obtain ⟨buf, hshift, hrest⟩ := Contains.remove_front hsplit hfirst hlist (Nat.not_lt.mp hback)
        rw [hindex, if_pos (by omega), hshift]
        exact ⟨_, rfl, h.removed hhead hrest⟩

end LinearFifo
end Funbun.Collections
