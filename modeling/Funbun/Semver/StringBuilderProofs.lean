import Mathlib.Data.List.Perm.Subperm
import Funbun.Semver.StringBuilder

/-! What is appended is read back.

Except for one kind of string: one of eight bytes whose last has its top bit set is not written into the buffer, and
its place is counted from where it happens to lie. -/
namespace Funbun.Semver
open Library

namespace SemverString

/-! ### Packed strings -/

theorem and_mask (n : Nat) : n &&& maxAddressableSpaceMask = n % 2 ^ 63 := Nat.and_two_pow_sub_one_eq_mod n 63

theorem or_top {n : Nat} (h : n < 2 ^ 63) : n ||| 1 <<< 63 = n + 2 ^ 63 := by
  rw [Nat.or_comm, Nat.one_shiftLeft, ← Nat.mul_one (2 ^ 63), ← Nat.two_pow_add_eq_or_of_lt h 1, Nat.add_comm]

theorem toBits_eq (p : Pointer) : p.toBits = p.off % 2 ^ 32 + 2 ^ 32 * (p.len % 2 ^ 32) := by
  unfold Pointer.toBits
  rw [ofLeBytes_append, ofLeBytes_leBytes_mod, ofLeBytes_leBytes_mod, length_leBytes]
  rfl

theorem fromBits_eq {bits : Nat} (h : bits < 2 ^ 63) : Pointer.fromBits bits = ⟨bits % 2 ^ 32, bits / 2 ^ 32⟩ := by
  have hsplit : leBytes 8 bits = leBytes 4 bits ++ leBytes 4 (bits / 256 ^ 4) := leBytes_add 4 4 bits
  have hlow : ofLeBytes (leBytes 4 bits) = bits % 2 ^ 32 := ofLeBytes_leBytes_mod 4 bits
  have hhigh : ofLeBytes (leBytes 4 (bits / 256 ^ 4)) = bits / 2 ^ 32 := by
    rw [ofLeBytes_leBytes_mod]
    exact Nat.mod_eq_of_lt (by omega)
  unfold Pointer.fromBits
  rw [hsplit, List.take_left' (length_leBytes 4 bits), List.drop_left' (length_leBytes 4 bits), hlow, hhigh]

/-- The number that is packed -/
theorem packed_bits (buf : Nat) (in_ : Slice) :
    (Pointer.init buf in_).toBits &&& maxAddressableSpaceMask ||| 1 <<< 63 =
      (Pointer.init buf in_).off + 2 ^ 32 * (in_.bytes.length % 2 ^ 31) + 2 ^ 63 := by
  have hoff : (Pointer.init buf in_).off < 2 ^ 32 := by
    have hnonneg : 0 ≤ (in_.addr - buf : Int) % UInt32.size := Int.emod_nonneg _ (by decide)
    have hlt : (in_.addr - buf : Int) % UInt32.size < UInt32.size := Int.emod_lt_of_pos _ (by decide)
    show ((in_.addr - buf : Int) % UInt32.size).toNat < 4294967296
    have hsize : (UInt32.size : Int) = 4294967296 := rfl
    omega
  have hlen : (Pointer.init buf in_).len = in_.bytes.length % 2 ^ 32 := rfl
  rw [and_mask, toBits_eq, hlen, Nat.mod_eq_of_lt hoff]
  have hmod : ((Pointer.init buf in_).off + 2 ^ 32 * (in_.bytes.length % 2 ^ 32 % 2 ^ 32)) % 2 ^ 63 =
      (Pointer.init buf in_).off + 2 ^ 32 * (in_.bytes.length % 2 ^ 31) := by omega
  rw [hmod, or_top (by omega)]

theorem byte_seven {v : Nat} (h : v < 2 ^ 64) : ((leBytes 8 v).getD 7 0).toNat = v / 2 ^ 56 := by
  have hsplit : leBytes 8 v = leBytes 7 v ++ leBytes 1 (v / 256 ^ 7) := leBytes_add 7 1 v
  have hlast : (leBytes 8 v).getD 7 0 = UInt8.ofNat (v / 256 ^ 7) := by
    rw [hsplit, List.getD_eq_getElem?_getD, List.getElem?_append_right (by rw [length_leBytes]), length_leBytes]
    rfl
  rw [hlast, UInt8.toNat_ofNat']
  exact Nat.mod_eq_of_lt (by omega)

theorem and_top : ∀ {n : Nat}, 128 ≤ n → n < 256 → n &&& 128 ≠ 0 := by decide

/-- A packed string is what stands at its place. -/
theorem slice_packed (buf : Nat) (in_ : Slice) (buffer : List UInt8) :
    (packed buf in_).slice buffer =
      let off := (Pointer.init buf in_).off
      let len := in_.bytes.length % 2 ^ 31
      if off + len ≤ buffer.length then (buffer.drop off).take len else [] := by
  have hoff : (Pointer.init buf in_).off < 2 ^ 32 := by
    have hnonneg : 0 ≤ (in_.addr - buf : Int) % UInt32.size := Int.emod_nonneg _ (by decide)
    have hlt : (in_.addr - buf : Int) % UInt32.size < UInt32.size := Int.emod_lt_of_pos _ (by decide)
    show ((in_.addr - buf : Int) % UInt32.size).toNat < 4294967296
    have hsize : (UInt32.size : Int) = 4294967296 := rfl
    omega
  have hbytes : (packed buf in_).bytes =
      leBytes 8 ((Pointer.init buf in_).off + 2 ^ 32 * (in_.bytes.length % 2 ^ 31) + 2 ^ 63) := by
    rw [← packed_bits]
    rfl
  generalize (Pointer.init buf in_).off = off at hoff hbytes ⊢
  generalize hlen : in_.bytes.length % 2 ^ 31 = len at hbytes ⊢
  have hlen' : len < 2 ^ 31 := by
    rw [← hlen]
    exact Nat.mod_lt _ (by decide)
  have hread : ofLeBytes (packed buf in_).bytes = off + 2 ^ 32 * len + 2 ^ 63 := by
    rw [hbytes]
    exact ofLeBytes_leBytes (by omega)
  have htop : ¬((packed buf in_).bytes.getD 7 0).toNat &&& 128 = 0 := by
    rw [hbytes, byte_seven (by omega)]
    exact and_top (by omega) (by omega)
  have hptr : (packed buf in_).ptr = ⟨off, len⟩ := by
    unfold ptr
    have hbits : (off + 2 ^ 32 * len + 2 ^ 63) % 2 ^ 63 = off + 2 ^ 32 * len := by omega
    have hfrom : Pointer.fromBits (off + 2 ^ 32 * len) =
        ⟨(off + 2 ^ 32 * len) % 2 ^ 32, (off + 2 ^ 32 * len) / 2 ^ 32⟩ := fromBits_eq (by omega)
    have hlow : (off + 2 ^ 32 * len) % 2 ^ 32 = off := by omega
    have hhigh : (off + 2 ^ 32 * len) / 2 ^ 32 = len := by omega
    rw [hread, and_mask, hbits, hfrom, hlow, hhigh]
  unfold slice
  rw [if_neg htop, hptr]

/-- No string is longer than its 31 bits say. -/
theorem length_slice (s : SemverString) (buffer : List UInt8) : (s.slice buffer).length < 2 ^ 31 := by
  unfold slice
  split
  · have hle := (List.takeWhile_prefix (p := (· != 0)) (l := s.bytes)).length_le
    rw [s.length] at hle
    omega
  · split
    · have hle : ((buffer.drop s.ptr.off).take s.ptr.len).length ≤ s.ptr.len := by
        rw [List.length_take]
        exact Nat.min_le_left _ _
      have hlen : s.ptr.len < 2 ^ 31 := by
        unfold ptr
        have hmod : ofLeBytes s.bytes &&& maxAddressableSpaceMask < 2 ^ 63 := by
          rw [and_mask]
          exact Nat.mod_lt _ (by decide)
        rw [fromBits_eq hmod]
        show _ / 2 ^ 32 < 2 ^ 31
        omega
      omega
    · decide

/-! ### Strings of their own -/

theorem takeWhile_padded {bytes : List UInt8} (h : 0 ∉ bytes) (n : Nat) :
    (bytes ++ List.replicate n 0).takeWhile (· != 0) = bytes := by
  have hall : ∀ byte ∈ bytes, (byte != 0) = true := by
    intro byte hbyte
    simpa using fun heq : byte = 0 => h (heq ▸ hbyte)
  rw [List.takeWhile_append_of_pos hall]
  cases n <;> simp

theorem and_top_of_lt : ∀ {n : Nat}, n < 128 → n &&& 128 = 0 := by decide

/-- What is not stored in itself is a place. -/
theorem init_of_not_inline {in_ : Slice} (h : canInline in_.bytes = false) (buf : Nat) : init buf in_ = packed buf in_ := by
  unfold canInline at h
  split_ifs at h with hlt heq
  · unfold init
    rw [dif_neg hlt, dif_neg]
    intro hand
    rw [and_top_of_lt hand.2] at h
    cases h
  · unfold init
    rw [dif_neg hlt, dif_neg fun hand => heq hand.1]

theorem slice_inline {buf : Nat} {in_ : Slice} (hinline : canInline in_.bytes = true) (hnul : 0 ∉ in_.bytes)
    (buffer : List UInt8) : (init buf in_).slice buffer = in_.bytes := by
  unfold init
  by_cases hshort : in_.bytes.length < maxInlineLen
  · rw [dif_pos hshort]
    have hlast : (in_.bytes ++ List.replicate (maxInlineLen - in_.bytes.length) (0 : UInt8)).getD 7 0 = 0 := by
      have hlt : in_.bytes.length < 8 := hshort
      rw [List.getD_eq_getElem?_getD, List.getElem?_append_right (by omega), List.getElem?_replicate]
      split <;> rfl
    unfold slice
    rw [if_pos (by rw [hlast]; rfl)]
    exact takeWhile_padded hnul _
  · have hcan : in_.bytes.length = maxInlineLen ∧ ((in_.bytes.getD 7 0).toNat &&& 0x80 == 0) = true := by
      unfold canInline at hinline
      rw [if_neg hshort] at hinline
      split at hinline
      · exact ⟨‹_›, hinline⟩
      · cases hinline
    have htop : (in_.bytes.getD 7 0).toNat < 128 := by
      by_contra hge
      exact and_top (Nat.not_lt.1 hge) (UInt8.toNat_lt _) (by simpa using hcan.2)
    rw [dif_neg hshort, dif_pos ⟨hcan.1, htop⟩]
    unfold slice
    rw [if_pos (and_top_of_lt htop)]
    have hpad := takeWhile_padded hnul 0
    rwa [List.replicate_zero, List.append_nil] at hpad

/-- What is stored is what stands at the place, when the place is in the buffer. -/
theorem slice_packed_at {addr off : Nat} {part text : List UInt8} (hle : off + part.length ≤ text.length)
    (hpart : (text.drop off).take part.length = part) (hoff : off < UInt32.size) (hlength : part.length < 2 ^ 31) :
    (packed addr ⟨addr + off, part⟩).slice text = part := by
  have hptr : (Pointer.init addr ⟨addr + off, part⟩).off = off := by
    have hdiff : (((addr + off : Nat) : Int) - addr) % UInt32.size = off := by
      rw [show ((addr + off : Nat) : Int) - addr = off by omega]
      exact Int.emod_eq_of_lt (Int.natCast_nonneg off) (Int.ofNat_lt.mpr hoff)
    show ((((addr + off : Nat) : Int) - addr) % UInt32.size).toNat = off
    rw [hdiff, Int.toNat_natCast]
  rw [slice_packed]
  simp only [hptr, Nat.mod_eq_of_lt hlength]
  rw [if_pos hle, hpart]

/-- A part of a text is kept as it is. -/
theorem slice_init {addr off : Nat} {part text : List UInt8} (hnul : 0 ∉ part)
    (hpart : (text.drop off).take part.length = part) (hoff : off < UInt32.size) (hlength : part.length < 2 ^ 31) :
    (init addr ⟨addr + off, part⟩).slice text = part := by
  cases hinline : canInline part with
  | true => exact slice_inline hinline hnul text
  | false =>
    have hle : off + part.length ≤ text.length := by
      have htake := congrArg List.length hpart
      have hlong : part ≠ [] := by
        rintro rfl
        cases hinline
      have hpos := List.length_pos_of_ne_nil hlong
      rw [List.length_take, List.length_drop] at htake
      omega
    rw [init_of_not_inline hinline]
    exact slice_packed_at hle hpart hoff hlength

end SemverString

open SemverString

/-! ### Room for all -/

/-- The strings that go into the buffer, together -/
def longTotal : List (List UInt8) → Nat
  | [] => 0
  | s :: rest => (if s.length ≤ maxInlineLen then 0 else s.length) + longTotal rest

variable {a b : List (List UInt8)}

theorem longTotal_perm (h : a.Perm b) : longTotal a = longTotal b := by
  induction h with
  | nil => rfl
  | cons s _ ih => rw [longTotal, longTotal, ih]
  | swap s t l =>
    simp only [longTotal]
    omega
  | trans _ _ ih₁ ih₂ => exact ih₁.trans ih₂

theorem longTotal_sublist (h : a.Sublist b) : longTotal a ≤ longTotal b := by
  induction h with
  | slnil => exact le_rfl
  | cons s _ ih => exact Nat.le_trans ih (Nat.le_add_left _ _)
  | cons_cons s _ ih => exact Nat.add_le_add_left ih _

theorem longTotal_subperm (h : a.Subperm b) : longTotal a ≤ longTotal b := by
  rcases h with ⟨l, hperm, hsub⟩
  rw [← longTotal_perm hperm]
  exact longTotal_sublist hsub

namespace Builder

/-- Each string is counted anew, for the pool is empty. -/
theorem foldl_count (stringHash : List UInt8 → UInt64) (l : List (List UInt8)) (b : Builder) (h : b.stringPool = []) :
    l.foldl (count stringHash) b = {b with cap := b.cap + longTotal l} := by
  induction l generalizing b with
  | nil => rfl
  | cons s l ih =>
    have hstep : b.count stringHash s = {b with cap := b.cap + if s.length ≤ maxInlineLen then 0 else s.length} := by
      rcases b with ⟨len, cap, ptr, pool⟩
      have hpool : pool = [] := h
      subst hpool
      unfold count countWithHash
      split <;> rfl
    rw [List.foldl_cons, ih _ (by rw [hstep]; exact h), hstep, longTotal]
    simp only [add_assoc]

/-! ### What is written -/

/-- A builder whose buffer has `cap` bytes and begins with a text -/
def written (cap : Nat) (text : List UInt8) (pool : List (UInt64 × SemverString)) : Builder :=
  ⟨text.length, cap, some (text ++ .replicate (cap - text.length) 0), pool⟩

/-- The handle of a long string that begins at an offset -/
def handle (buf : Nat) (p : Nat × List UInt8) : SemverString := init buf ⟨buf + p.1, p.2⟩

section Step
variable {cap buf : Nat} {text : List UInt8} {pool : List (UInt64 × SemverString)} {slice_ : Slice}

theorem text_of_written {text' : List UInt8} {pool' : List (UInt64 × SemverString)}
    (h : written cap text pool = written cap text' pool') : text = text' :=
  List.append_inj_left (Option.some.inj (congrArg Builder.ptr h)) (congrArg Builder.len h)

variable (pool) in
theorem allocatedSlice_written (h : text.length ≤ cap) :
    (written cap text pool).allocatedSlice = some (text ++ .replicate (cap - text.length) 0) := by
  unfold allocatedSlice written
  dsimp only
  split
  · rw [Option.map_some, List.take_of_length_le]
    simp only [List.length_append, List.length_replicate]
    omega
  · have hnil : text = [] := List.eq_nil_of_length_eq_zero (by omega)
    subst hnil
    have hzero : cap = 0 := by omega
    rw [hzero]
    rfl

variable (buf pool) in
theorem write_written (hroom : text.length + slice_.bytes.length ≤ cap) :
    (written cap text pool).write buf slice_ =
      some (written cap (text ++ slice_.bytes) pool, handle buf (text.length, slice_.bytes)) := by
  have hguard : cap ≤ (text ++ List.replicate (cap - text.length) (0 : UInt8)).length ∧ text.length ≤ cap ∧
      slice_.bytes.length ≤ cap - text.length := by
    rw [List.length_append, List.length_replicate]
    omega
  have hptr : (text ++ List.replicate (cap - text.length) (0 : UInt8)).take text.length ++ slice_.bytes ++
      (text ++ List.replicate (cap - text.length) (0 : UInt8)).drop (text.length + slice_.bytes.length) =
        text ++ slice_.bytes ++ .replicate (cap - (text ++ slice_.bytes).length) 0 := by
    rw [List.take_left, List.drop_length_add_append, List.drop_replicate, List.length_append, Nat.sub_sub]
  unfold write written
  rw [Option.bind_eq_bind, Option.bind_some, if_pos hguard, hptr, List.length_append]
  rfl

/-- One string: in itself, the handle of the pool that reads as it, or written. -/
theorem append_written {stringHash : List UInt8 → UInt64} (hroom : text.length + longTotal [slice_.bytes] ≤ cap) :
    (written cap text pool).append buf slice_ stringHash = some (
      if slice_.bytes.length ≤ maxInlineLen then (written cap text pool, init buf slice_)
      else
        match pool.lookup (stringHash slice_.bytes) with
        | some value =>
          if value.slice (text ++ .replicate (cap - text.length) 0) = slice_.bytes then (written cap text pool, value)
          else (written cap (text ++ slice_.bytes) pool, handle buf (text.length, slice_.bytes))
        | none =>
          (written cap (text ++ slice_.bytes)
            ((stringHash slice_.bytes, handle buf (text.length, slice_.bytes)) :: pool),
            handle buf (text.length, slice_.bytes))) := by
  have halloc := allocatedSlice_written pool (Nat.le_trans (Nat.le_add_right _ _) hroom)
  unfold append appendWithHash
  by_cases hshort : slice_.bytes.length ≤ maxInlineLen
  · rw [if_pos hshort, if_pos hshort, halloc]
    rfl
  · rw [longTotal, if_neg hshort] at hroom
    have hwrite := write_written buf pool hroom
    rw [if_neg hshort, if_neg hshort]
    show (match pool.lookup (stringHash slice_.bytes) with | some value => _ | none => _) = _
    cases pool.lookup (stringHash slice_.bytes) with
    | none =>
      dsimp only
      rw [hwrite]
      rfl
    | some value =>
      have htake : (text ++ List.replicate (cap - text.length) (0 : UInt8)).take cap =
          text ++ .replicate (cap - text.length) 0 := by
        apply List.take_of_length_le
        rw [List.length_append, List.length_replicate]
        omega
      show (if value.slice ((text ++ List.replicate (cap - text.length) (0 : UInt8)).take cap) ≠ slice_.bytes then
        (written cap text pool).appendWithoutPool buf slice_ else some (written cap text pool, value)) = _
      rw [htake, appendWithoutPool, if_neg hshort, hwrite, ite_not]
      exact (apply_ite some _ _ _).symm

end Step

/-! ### Places -/

/-- Where the long strings go, behind each other: one that equals the first with its hash goes nowhere. -/
def places (stringHash : List UInt8 → UInt64) :
    List (UInt64 × Nat × List UInt8) → Nat → List (List UInt8) → List (Nat × List UInt8)
  | _, _, [] => []
  | pool, off, s :: rest =>
    if s.length ≤ maxInlineLen then places stringHash pool off rest
    else
      match pool.lookup (stringHash s) with
      | some p => if p.2 = s then places stringHash pool off rest
        else (off, s) :: places stringHash pool (off + s.length) rest
      | none => (off, s) :: places stringHash ((stringHash s, off, s) :: pool) (off + s.length) rest

/-- The strings at their places -/
def textOf (places : List (Nat × List UInt8)) : List UInt8 := places.flatMap Prod.snd

theorem textOf_cons (p : Nat × List UInt8) (places : List (Nat × List UInt8)) :
    textOf (p :: places) = p.2 ++ textOf places := List.flatMap_cons

/-- The string stands at its offset, of which 32 bits are kept. -/
def Found (text : List UInt8) (p : Nat × List UInt8) : Prop :=
  (text.drop (p.1 % UInt32.size)).take p.2.length = p.2

variable {p : Nat × List UInt8} {text s : List UInt8}

theorem found_append {text rest : List UInt8} (hin : p.1 + p.2.length ≤ text.length) :
    Found (text ++ rest) p ↔ Found text p := by
  have hle := Nat.mod_le p.1 UInt32.size
  rw [Found, Found, List.drop_append_of_le_length (by omega), List.take_append_of_le_length]
  rw [List.length_drop]
  omega

/-- Each stands at its offset, and so it is found there if that has 32 bits. -/
theorem places_spec {stringHash : List UInt8 → UInt64} (l : List (List UInt8)) (pool : List (UInt64 × Nat × List UInt8))
    (off : Nat) : ∀ p ∈ places stringHash pool off l,
      off ≤ p.1 ∧ ((textOf (places stringHash pool off l)).drop (p.1 - off)).take p.2.length = p.2 := by
  induction l generalizing pool off with
  | nil => exact fun p hp => nomatch hp
  | cons s l ih =>
    have hcons (pool : List (UInt64 × Nat × List UInt8)) :
        ∀ p ∈ (off, s) :: places stringHash pool (off + s.length) l, off ≤ p.1 ∧
          ((textOf ((off, s) :: places stringHash pool (off + s.length) l)).drop (p.1 - off)).take p.2.length = p.2 := by
      intro p hp
      rw [textOf_cons]
      rcases List.mem_cons.mp hp with rfl | hp
      · rw [Nat.sub_self, List.drop_zero, List.take_left]
        exact ⟨le_rfl, rfl⟩
      · obtain ⟨hle, hfound⟩ := ih pool (off + s.length) p hp
        have hsub : p.1 - off = s.length + (p.1 - (off + s.length)) := by omega
        rw [hsub, List.drop_length_add_append]
        exact ⟨by omega, hfound⟩
    rw [places]
    split
    · exact ih pool off
    · split
      · split
        · exact ih pool off
        · exact hcons _
      · exact hcons _

/-- A long string is read back exactly if its length has 31 bits and it is found. -/
theorem slice_handle_iff (buf : Nat) (rest : List UInt8)
    (hlong : maxInlineLen < p.2.length) (hin : p.1 + p.2.length ≤ text.length) :
    (handle buf p).slice (text ++ rest) = p.2 ↔ p.2.length < 2 ^ 31 ∧ Found text p := by
  have hoff : (Pointer.init buf ⟨buf + p.1, p.2⟩).off = p.1 % UInt32.size := by
    show (((buf + p.1 : Nat) - buf : Int) % UInt32.size).toNat = _
    rw [Nat.cast_add, add_sub_cancel_left, ← Int.natCast_mod, Int.toNat_natCast]
  have hpacked : handle buf p = packed buf ⟨buf + p.1, p.2⟩ := by
    apply init_of_not_inline
    unfold canInline
    rw [if_neg (Nat.not_lt.2 (Nat.le_of_lt hlong)), if_neg (Nat.ne_of_gt hlong)]
  have hslice : p.2.length < 2 ^ 31 → ((handle buf p).slice (text ++ rest) = p.2 ↔ Found (text ++ rest) p) := by
    intro hlt
    have hle := Nat.mod_le p.1 UInt32.size
    rw [hpacked, slice_packed, hoff]
    dsimp only
    rw [Nat.mod_eq_of_lt hlt, if_pos (by rw [List.length_append]; omega), Found]
  constructor
  · intro h
    have hlt : p.2.length < 2 ^ 31 := by
      rw [← h]
      exact length_slice _ _
    exact ⟨hlt, (found_append hin).mp ((hslice hlt).mp h)⟩
  · rintro ⟨hlt, hfound⟩
    exact (hslice hlt).mpr ((found_append hin).mpr hfound)

/-- Every string of the pool stands in the text and is read back. -/
def Kept (text : List UInt8) (pool : List (UInt64 × Nat × List UInt8)) : Prop :=
  ∀ e ∈ pool, maxInlineLen < e.2.2.length ∧ e.2.1 + e.2.2.length ≤ text.length ∧ e.2.2.length < 2 ^ 31 ∧ Found text e.2

theorem Kept.append {text more : List UInt8} {pool : List (UInt64 × Nat × List UInt8)} (h : Kept text pool) :
    Kept (text ++ more) pool := by
  intro e he
  obtain ⟨hlong, hin, hlt, hfound⟩ := h e he
  refine ⟨hlong, ?_, hlt, (found_append hin).mpr hfound⟩
  rw [List.length_append]
  omega

def handles (buf : Nat) (pool : List (UInt64 × Nat × List UInt8)) : List (UInt64 × SemverString) :=
  pool.map fun e => (e.1, handle buf e.2)

theorem lookup_handles (buf : Nat) (hash : UInt64) (pool : List (UInt64 × Nat × List UInt8)) :
    (handles buf pool).lookup hash = (pool.lookup hash).map (handle buf) := by
  induction pool with
  | nil => rfl
  | cons e pool ih =>
    rw [handles, List.map_cons, List.lookup_cons, List.lookup_cons]
    cases hash == e.1 with
    | true => rfl
    | false => exact ih

section Run
variable {cap buf : Nat} {stringHash : List UInt8 → UInt64}

variable (buf stringHash) in
/-- With room for all, all are appended, and a short string comes back as it lies. -/
theorem appendAll_written (slices : List Slice) (text : List UInt8) (pool : List (UInt64 × SemverString))
    (hroom : text.length + longTotal (slices.map Slice.bytes) ≤ cap) :
    ∃ more pool' values,
      appendAll buf stringHash (written cap text pool) slices = some (written cap (text ++ more) pool', values) ∧
        (text ++ more).length ≤ cap ∧
        List.Forall₂ (fun value s => s.bytes.length ≤ maxInlineLen → value = init buf s) values slices := by
  induction slices generalizing text pool with
  | nil =>
    refine ⟨[], pool, [], ?_, ?_, .nil⟩
    · rw [List.append_nil]
      rfl
    · rw [List.append_nil]
      exact hroom
  | cons slice_ slices ih =>
    have htotal : longTotal ((slice_ :: slices).map Slice.bytes) =
        longTotal [slice_.bytes] + longTotal (slices.map Slice.bytes) := rfl
    rw [htotal] at hroom
    have hstep : ∃ first pool₁ value,
        (written cap text pool).append buf slice_ stringHash = some (written cap (text ++ first) pool₁, value) ∧
          first.length ≤ longTotal [slice_.bytes] ∧ (slice_.bytes.length ≤ maxInlineLen → value = init buf slice_) := by
      rw [append_written (by omega)]
      by_cases hshort : slice_.bytes.length ≤ maxInlineLen
      · rw [if_pos hshort]
        exact ⟨[], pool, _, by rw [List.append_nil], Nat.zero_le _, fun _ => rfl⟩
      · have hlength : slice_.bytes.length ≤ longTotal [slice_.bytes] := by
          rw [longTotal, if_neg hshort]
          exact Nat.le_add_right _ _
        rw [if_neg hshort]
        split
        · split
          · exact ⟨[], pool, _, by rw [List.append_nil], Nat.zero_le _, fun h => absurd h hshort⟩
          · exact ⟨slice_.bytes, pool, _, rfl, hlength, fun h => absurd h hshort⟩
        · exact ⟨slice_.bytes, _, _, rfl, hlength, fun h => absurd h hshort⟩
    obtain ⟨first, pool₁, value, hfirst, hlength, hvalue⟩ := hstep
    obtain ⟨more, pool', values, hrest, hle, hvalues⟩ := ih (text ++ first) pool₁ (by rw [List.length_append]; omega)
    rw [List.append_assoc] at hrest hle
    refine ⟨first ++ more, pool', value :: values, ?_, hle, .cons hvalue hvalues⟩
    rw [appendAll, hfirst, Option.bind_eq_bind, Option.bind_some]
    dsimp only
    rw [hrest]
    rfl

variable (stringHash) in
/-- A long string that the pool does not have goes to the end. -/
theorem append_place {text : List UInt8} {pool : List (UInt64 × Nat × List UInt8)} {slice_ : Slice} (hkept : Kept text pool)
    (hlong : maxInlineLen < slice_.bytes.length) (hroom : text.length + longTotal [slice_.bytes] ≤ cap) :
    (∃ p, (written cap text (handles buf pool)).append buf slice_ stringHash =
        some (written cap text (handles buf pool), handle buf (p, slice_.bytes)) ∧
      p + slice_.bytes.length ≤ text.length ∧ slice_.bytes.length < 2 ^ 31 ∧ Found text (p, slice_.bytes) ∧
      ∀ rest, places stringHash pool text.length (slice_.bytes :: rest) = places stringHash pool text.length rest) ∨
    ∃ pool₁, (written cap text (handles buf pool)).append buf slice_ stringHash =
        some (written cap (text ++ slice_.bytes) (handles buf pool₁), handle buf (text.length, slice_.bytes)) ∧
      (∀ e ∈ pool₁, e ∈ pool ∨ e.2 = (text.length, slice_.bytes)) ∧
      ∀ rest, places stringHash pool text.length (slice_.bytes :: rest) =
        (text.length, slice_.bytes) :: places stringHash pool₁ (text ++ slice_.bytes).length rest := by
  have hshort := Nat.not_le.mpr hlong
  rw [append_written hroom, if_neg hshort, lookup_handles]
  simp only [places, if_neg hshort, List.length_append]
  cases hlookup : pool.lookup (stringHash slice_.bytes) with
  | none =>
    refine .inr ⟨(stringHash slice_.bytes, text.length, slice_.bytes) :: pool, rfl, fun e he => ?_, fun _ => rfl⟩
    rcases List.mem_cons.mp he with rfl | he
    · exact .inr rfl
    · exact .inl he
  | some p =>
    have hmem : (stringHash slice_.bytes, p) ∈ pool := by
      obtain ⟨front, back, heq, -⟩ := List.lookup_eq_some_iff.mp hlookup
      rw [heq]
      exact List.mem_append_right _ List.mem_cons_self
    obtain ⟨hlong', hin, hlt, hfound⟩ := hkept _ hmem
    have hread : (handle buf p).slice (text ++ .replicate (cap - text.length) 0) = p.2 :=
      (slice_handle_iff buf _ hlong' hin).mpr ⟨hlt, hfound⟩
    simp only [Option.map_some, hread]
    by_cases heq : p.2 = slice_.bytes
    · refine .inl ⟨p.1, ?_, ?_⟩
      · rw [if_pos heq, ← heq]
      · simp only [if_pos heq]
        rw [← heq]
        exact ⟨hin, hlt, hfound, fun _ => trivial⟩
    · simp only [if_neg heq]
      exact .inr ⟨pool, rfl, fun e he => .inl he, fun _ => rfl⟩

/-- Long strings are read back in the end exactly if their lengths have 31 bits and each is found at its place.
Induction on the strings: while they are found, the pool has them where their places are. -/
theorem reads_iff (slices : List Slice) (text more rest : List UInt8) (pool : List (UInt64 × Nat × List UInt8))
    (pool' : List (UInt64 × SemverString)) (values : List SemverString) (hkept : Kept text pool)
    (hroom : text.length + longTotal (slices.map Slice.bytes) ≤ cap)
    (hrun : appendAll buf stringHash (written cap text (handles buf pool)) slices =
      some (written cap (text ++ more) pool', values)) :
    let found := places stringHash pool text.length (slices.map Slice.bytes)
    let reads := List.Forall₂ (fun value s => maxInlineLen < s.bytes.length → value.slice (text ++ more ++ rest) = s.bytes)
      values slices
    let fits := (∀ s ∈ slices, maxInlineLen < s.bytes.length → s.bytes.length < 2 ^ 31) ∧
      ∀ p ∈ found, Found (text ++ textOf found) p
    (reads → more = textOf found ∧ fits) ∧ (fits → more = textOf found ∧ reads) := by
  induction slices generalizing text more pool values with
  | nil =>
    obtain ⟨hb, rfl⟩ := Prod.mk.inj (Option.some.inj hrun)
    have hnil : more = [] := List.self_eq_append_right.mp (text_of_written hb)
    exact ⟨fun _ => ⟨hnil, ⟨(fun s hs => nomatch hs), fun p hp => nomatch hp⟩⟩, fun _ => ⟨hnil, .nil⟩⟩
  | cons slice_ slices ih =>
    have htotal : longTotal ((slice_ :: slices).map Slice.bytes) =
        longTotal [slice_.bytes] + longTotal (slices.map Slice.bytes) := rfl
    rw [htotal] at hroom
    obtain ⟨⟨b₁, value⟩, hfirst, hrest⟩ := Option.bind_eq_some_iff.mp hrun
    obtain ⟨⟨b₂, values'⟩, htail, heq⟩ := Option.bind_eq_some_iff.mp hrest
    cases heq
    simp only [List.map_cons, List.forall₂_cons, List.forall_mem_cons]
    by_cases hshort : slice_.bytes.length ≤ maxInlineLen
    · rw [append_written (by omega), if_pos hshort] at hfirst
      cases hfirst
      have hih := ih text more pool values' hkept (by omega) htail
      simp only [places, if_pos hshort, Nat.not_lt.mpr hshort, false_implies, true_and]
      exact hih
    · have hlong := Nat.not_le.mp hshort
      have hroom₁ : text.length + longTotal [slice_.bytes] ≤ cap := by omega
      rcases append_place stringHash hkept hlong hroom₁ with
        ⟨p, happend, hin, hlt, hfound, hplaces⟩ | ⟨pool₁, happend, hpool, hplaces⟩
      · rw [happend] at hfirst
        cases hfirst
        have hih := ih text more pool values' hkept (by omega) htail
        have hread : (handle buf (p, slice_.bytes)).slice (text ++ more ++ rest) = slice_.bytes := by
          rw [List.append_assoc]
          exact (slice_handle_iff buf _ hlong hin).mpr ⟨hlt, hfound⟩
        simp only [hplaces, hread, hlt, implies_true, true_and]
        exact hih
      · rw [happend] at hfirst
        cases hfirst
        have hlength : longTotal [slice_.bytes] = slice_.bytes.length := by
          rw [longTotal, if_neg hshort]
          rfl
        have hroom' : (text ++ slice_.bytes).length + longTotal (slices.map Slice.bytes) ≤ cap := by
          rw [List.length_append]
          omega
        obtain ⟨more', rfl⟩ : ∃ more', more = slice_.bytes ++ more' := by
          obtain ⟨more', pool₂, values₂, hgeneral, -, -⟩ := appendAll_written buf stringHash slices
            (text ++ slice_.bytes) (handles buf pool₁) hroom'
          have htext := text_of_written (Prod.mk.inj (Option.some.inj (htail.symm.trans hgeneral))).1
          rw [List.append_assoc] at htext
          exact ⟨more', List.append_cancel_left htext⟩
        have hin : text.length + slice_.bytes.length ≤ (text ++ slice_.bytes).length := List.length_append.ge
        have hpool' (hlt : slice_.bytes.length < 2 ^ 31) (hfound : Found (text ++ slice_.bytes) (text.length, slice_.bytes)) :
            Kept (text ++ slice_.bytes) pool₁ := by
          intro e he
          rcases hpool e he with hold | hnew
          · exact hkept.append e hold
          · rw [hnew]
            exact ⟨hlong, hin, hlt, hfound⟩
        have hread := slice_handle_iff buf (more' ++ rest) (p := (text.length, slice_.bytes)) hlong hin
        have hfirst (rest : List UInt8) : Found (text ++ slice_.bytes ++ rest) (text.length, slice_.bytes) ↔ _ :=
          found_append hin
        rw [← List.append_assoc] at htail
        simp only [hplaces, textOf_cons, List.forall_mem_cons, hlong, true_implies, List.append_cancel_left_eq]
        simp only [← List.append_assoc] at hread ⊢
        rw [hread, hfirst]
        constructor
        · rintro ⟨⟨hlt, hfound⟩, hreads⟩
          obtain ⟨hmore, hfits, hfounds⟩ := (ih _ _ _ _ (hpool' hlt hfound) hroom' htail).1 hreads
          exact ⟨hmore, ⟨hlt, hfits⟩, hfound, hfounds⟩
        · rintro ⟨⟨hlt, hfits⟩, hfound, hfounds⟩
          obtain ⟨hmore, hreads⟩ := (ih _ _ _ _ (hpool' hlt hfound) hroom' htail).2 ⟨hfits, hfounds⟩
          exact ⟨hmore, ⟨hlt, hfound⟩, hreads⟩

end Run

/-! ### The whole use of a builder -/

/-- Counted, allocated and appended: nothing is written outside of the buffer, and each string is read back. -/
def Faithful (buf : Nat) (stringHash : List UInt8 → UInt64) (counted : List (List UInt8)) (slices : List Slice) : Prop :=
  ∃ b values allocated,
    appendAll buf stringHash (counted.foldl (count stringHash) .empty).allocate slices = some (b, values) ∧
      b.len ≤ b.cap ∧ b.allocatedSlice = some allocated ∧
      List.Forall₂ (fun value s => value.slice allocated = s.bytes) values slices

/-- A string that is stored as it should be: in itself, in the buffer, or in no place of its own while the buffer has its
eight bytes wherever 32 bits lead to -/
def Storable (text s : List UInt8) : Prop :=
  canInline s = true ∨ maxInlineLen < s.length ∧ s.length < 2 ^ 31 ∨
    s.length = maxInlineLen ∧ ∀ off < UInt32.size, (text.drop off).take maxInlineLen = s

theorem canInline_le (h : canInline s = true) : s.length ≤ maxInlineLen := by
  unfold canInline at h
  split_ifs at h with hlt heq
  · exact Nat.le_of_lt hlt
  · exact Nat.le_of_eq heq

/-- What has eight bytes and cannot be inline has the top bit of its last one. -/
theorem last_of_not_inline (hle : s.length ≤ maxInlineLen) (h : canInline s = false) :
    s.length = maxInlineLen ∧ s[7]? ≠ some 0 := by
  unfold canInline at h
  split_ifs at h with hlt heq
  · refine ⟨heq, fun hzero => ?_⟩
    rw [List.getD_eq_getElem?_getD, hzero] at h
    cases h
  · omega

/-- The place of a string that was not written is where it happens to lie. -/
theorem slice_outside {buf off : Nat} {s buffer : List UInt8} (hlength : s.length = maxInlineLen) (h : canInline s = false)
    (addr : Nat) (haddr : (addr - buf : Int) % UInt32.size = off) :
    (init buf ⟨addr, s⟩).slice buffer = s ↔ (buffer.drop off).take maxInlineLen = s := by
  have heq : (Pointer.init buf ⟨addr, s⟩).off = off := by
    show ((addr - buf : Int) % UInt32.size).toNat = off
    rw [haddr, Int.toNat_natCast]
  rw [init_of_not_inline h, slice_packed, heq, hlength]
  show (if off + 8 ≤ buffer.length then (buffer.drop off).take 8 else []) = s ↔ (buffer.drop off).take 8 = s
  split
  · rfl
  · rename_i hout
    have hlength' : s.length = 8 := hlength
    refine iff_of_false (fun hnil => ?_) fun htake => ?_
    · rw [← hnil] at hlength'
      cases hlength'
    · have hlen := congrArg List.length htake
      rw [List.length_take, List.length_drop] at hlen
      omega

/-- Zeros behind the text are not read as a string whose last byte is none. -/
theorem take_zeros {off n : Nat} (hlength : s.length = maxInlineLen) (hlast : s[7]? ≠ some 0) :
    ((text ++ .replicate n 0).drop off).take maxInlineLen = s ↔ (text.drop off).take maxInlineLen = s := by
  by_cases hin : off + 8 ≤ text.length
  · rw [List.drop_append_of_le_length (by omega), List.take_append_of_le_length (by rw [List.length_drop]; exact Nat.le_sub_of_add_le' hin)]
  · refine iff_of_false (fun h => ?_) fun h => ?_
    · have h8 : maxInlineLen = 8 := rfl
      have hlen := congrArg List.length h
      rw [hlength, List.length_take, List.length_drop, List.length_append, List.length_replicate] at hlen
      have hzero : (((text ++ List.replicate n 0).drop off).take maxInlineLen)[7]? = some 0 := by
        rw [h8, List.getElem?_take_of_lt (by decide), List.getElem?_drop, List.getElem?_append_right (by omega),
          List.getElem?_replicate, if_pos (by omega)]
      exact hlast (h ▸ hzero)
    · have hlen := congrArg List.length h
      rw [hlength, List.length_take, List.length_drop] at hlen
      have h8 : maxInlineLen = 8 := rfl
      omega

section Use
variable {buf : Nat} {stringHash : List UInt8 → UInt64} {counted : List (List UInt8)} {slices : List Slice}

theorem allocate_eq (stringHash : List UInt8 → UInt64) (counted : List (List UInt8)) :
    (counted.foldl (count stringHash) .empty).allocate = written (longTotal counted) [] [] := by
  rw [foldl_count stringHash counted .empty rfl]
  show (⟨0, 0 + longTotal counted, some (.replicate (0 + longTotal counted) 0), []⟩ : Builder) = _
  rw [Nat.zero_add]
  rfl

/-- A short string comes back as it lies, so what is left are the long ones. -/
theorem reads_split {allocated : List UInt8} {values : List SemverString}
    (hinit : List.Forall₂ (fun value s => s.bytes.length ≤ maxInlineLen → value = init buf s) values slices) :
    List.Forall₂ (fun value s => value.slice allocated = s.bytes) values slices ↔
      List.Forall₂ (fun value s => maxInlineLen < s.bytes.length → value.slice allocated = s.bytes) values slices ∧
        ∀ s ∈ slices, s.bytes.length ≤ maxInlineLen → (init buf s).slice allocated = s.bytes := by
  induction hinit with
  | nil => simp
  | cons hvalue _ ih =>
    rename_i value s _ _ _
    rw [List.forall₂_cons, List.forall₂_cons, List.forall_mem_cons, ih]
    by_cases hshort : s.bytes.length ≤ maxInlineLen
    · rw [hvalue hshort]
      simp only [hshort, Nat.not_lt.mpr hshort, true_implies, false_implies, true_and]
      exact and_left_comm
    · simp only [hshort, Nat.not_le.mp hshort, true_implies, false_implies, true_and, and_assoc]

variable (buf stringHash) in
/-- What is read back: the long strings at their places, and the short ones in themselves or where they lie -/
theorem faithful_iff_fits (hsub : (slices.map Slice.bytes).Subperm counted) :
    let found := places stringHash [] 0 (slices.map Slice.bytes)
    let allocated := textOf found ++ .replicate (longTotal counted - (textOf found).length) 0
    Faithful buf stringHash counted slices ↔
      ((∀ s ∈ slices, maxInlineLen < s.bytes.length → s.bytes.length < 2 ^ 31) ∧ ∀ p ∈ found, Found (textOf found) p) ∧
        ∀ s ∈ slices, s.bytes.length ≤ maxInlineLen → (init buf s).slice allocated = s.bytes := by
  intro found allocated
  have hroom : 0 + longTotal (slices.map Slice.bytes) ≤ longTotal counted := by
    rw [Nat.zero_add]
    exact longTotal_subperm hsub
  obtain ⟨more, pool', values, hrun, hle, hinit⟩ := appendAll_written buf stringHash slices [] [] hroom
  have hreads := reads_iff slices [] more (.replicate (longTotal counted - more.length) 0) [] pool' values
    (fun e he => nomatch he) hroom hrun
  simp only [List.nil_append] at hrun hle hreads
  have hsame : Faithful buf stringHash counted slices ↔
      List.Forall₂ (fun value s => value.slice (more ++ .replicate (longTotal counted - more.length) 0) = s.bytes)
        values slices := by
    unfold Faithful
    rw [allocate_eq, hrun]
    constructor
    · rintro ⟨b, values', allocated', heq, -, halloc, hall⟩
      cases heq
      rw [allocatedSlice_written _ hle] at halloc
      cases halloc
      exact hall
    · exact fun hall => ⟨_, _, _, rfl, hle, allocatedSlice_written _ hle, hall⟩
  rw [hsame, reads_split hinit]
  constructor
  · rintro ⟨hlongs, hshorts⟩
    obtain ⟨rfl, hfits⟩ := hreads.1 hlongs
    exact ⟨hfits, hshorts⟩
  · rintro ⟨hfits, hshorts⟩
    obtain ⟨rfl, hlongs⟩ := hreads.2 hfits
    exact ⟨hlongs, hshorts⟩

end Use

/-- **Strings are read back wherever they lie, exactly if** each is short enough for the 31 bits of its length, none has
eight bytes and the top bit of its last one, and those that begin behind 2^32 bytes are found where 32 bits lead to. -/
theorem faithful_iff (stringHash : List UInt8 → UInt64) (counted appended : List (List UInt8))
    (hnul : ∀ s ∈ counted, 0 ∉ s) (hsub : appended.Subperm counted) :
    (∀ buf slices, slices.map Slice.bytes = appended → Faithful buf stringHash counted slices) ↔
      (∀ s ∈ appended, Storable (textOf (places stringHash [] 0 appended)) s) ∧
        ∀ p ∈ places stringHash [] 0 appended, UInt32.size ≤ p.1 →
          Found (textOf (places stringHash [] 0 appended)) p := by
  constructor
  · intro hfaithful
    have hat (off : Nat) : Faithful 0 stringHash counted (appended.map fun s => ⟨off, s⟩) :=
      hfaithful 0 _ (by rw [List.map_map]; exact List.map_id _)
    have hbytes (off : Nat) : (appended.map fun s => (⟨off, s⟩ : Slice)).map Slice.bytes = appended := by
      rw [List.map_map]
      exact List.map_id _
    simp only [fun off => faithful_iff_fits 0 stringHash ((hbytes off).symm ▸ hsub), hbytes,
      List.forall_mem_map] at hat
    refine ⟨fun s hs => ?_, fun p hp _ => (hat 0).1.2 p hp⟩
    by_cases hlong : maxInlineLen < s.length
    · exact .inr (.inl ⟨hlong, (hat 0).1.1 s hs hlong⟩)
    · cases hinline : canInline s with
      | true => exact .inl hinline
      | false =>
        obtain ⟨hlength, hlast⟩ := last_of_not_inline (Nat.not_lt.mp hlong) hinline
        refine .inr (.inr ⟨hlength, fun off hoff => ?_⟩)
        have hmod : ((off : Int) - (0 : Nat)) % UInt32.size = off := by
          rw [Nat.cast_zero, sub_zero]
          exact Int.emod_eq_of_lt (Int.natCast_nonneg off) (Int.ofNat_lt.mpr hoff)
        have hread := (hat off).2 s hs (Nat.not_lt.mp hlong)
        rwa [slice_outside hlength hinline _ hmod, take_zeros hlength hlast] at hread
  · rintro ⟨hstorable, hfound⟩ buf slices rfl
    refine (faithful_iff_fits buf stringHash hsub).mpr ⟨⟨fun s hs hlong => ?_, fun p hp => ?_⟩, fun s hs hshort => ?_⟩
    · rcases hstorable _ (List.mem_map_of_mem hs) with hinline | hplace | hout
      · exact absurd (canInline_le hinline) (Nat.not_le.mpr hlong)
      · exact hplace.2
      · exact absurd hout.1 (Nat.ne_of_gt hlong)
    · by_cases hlt : p.1 < UInt32.size
      · rw [Found, Nat.mod_eq_of_lt hlt]
        exact (places_spec _ [] 0 p hp).2
      · exact hfound p hp (Nat.not_lt.mp hlt)
    · cases hinline : canInline s.bytes with
      | true => exact slice_inline hinline (hnul _ (hsub.subset (List.mem_map_of_mem hs))) _
      | false =>
        obtain ⟨hlength, hlast⟩ := last_of_not_inline hshort hinline
        have hsize : (UInt32.size : Int) = 4294967296 := rfl
        obtain ⟨off, hoff⟩ := Int.eq_ofNat_of_zero_le (Int.emod_nonneg (s.addr - buf : Int) (by decide : (UInt32.size : Int) ≠ 0))
        have hlt : off < UInt32.size := by
          have hlt := Int.emod_lt_of_pos (s.addr - buf : Int) (by decide : (0 : Int) < UInt32.size)
          omega
        rw [slice_outside hlength hinline _ hoff, take_zeros hlength hlast]
        rcases hstorable _ (List.mem_map_of_mem hs) with hyes | hplace | hout
        · exact absurd (hinline.symm.trans hyes) (by decide)
        · omega
        · exact hout.2 off hlt

/-- Two long strings with the same hash, one of them twice, and a short one -/
theorem faithful_collision :
    Faithful 0x10000 (fun _ => 0) [[3, 4], .replicate 9 1, .replicate 12 2, .replicate 9 1]
      [⟨0x20000, .replicate 9 1⟩, ⟨0x20010, .replicate 12 2⟩, ⟨0x20020, [3, 4]⟩, ⟨0x20000, .replicate 9 1⟩] := by
  refine (faithful_iff (fun _ => 0) [[3, 4], .replicate 9 1, .replicate 12 2, .replicate 9 1]
    [.replicate 9 1, .replicate 12 2, [3, 4], .replicate 9 1] (by decide) (List.Perm.subperm (by decide))).2 ⟨?_, ?_⟩
      0x10000 _ rfl
  · intro s hs
    simp only [List.mem_cons, List.not_mem_nil, or_false] at hs
    rcases hs with rfl | rfl | rfl | rfl
    · exact .inr (.inl (by decide))
    · exact .inr (.inl (by decide))
    · exact .inl (by decide)
    · exact .inr (.inl (by decide))
  · have hplaces : ∀ p ∈ places (fun _ => 0) [] 0 [.replicate 9 1, .replicate 12 2, [3, 4], .replicate 9 1],
        p.1 < UInt32.size := by decide
    exact fun p hp hle => absurd (hplaces p hp) (Nat.not_lt.mpr hle)

/-- `aaaaaaé` is not read back: it is nowhere in the buffer. -/
theorem faithful_nonAscii :
    let s : List UInt8 := [0x61, 0x61, 0x61, 0x61, 0x61, 0x61, 0xc3, 0xa9]
    0 ∉ s ∧ ¬Faithful 0x10000 (fun _ => 0) [s] [⟨0x20000, s⟩] := by
  refine ⟨by decide, ?_⟩
  rintro ⟨b, values, allocated, hrun, _, halloc, hvalues⟩
  have hread : (appendAll 0x10000 (fun _ => 0)
      (([[0x61, 0x61, 0x61, 0x61, 0x61, 0x61, 0xc3, 0xa9]] : List (List UInt8)).foldl (count fun _ => 0) .empty).allocate
      [⟨0x20000, [0x61, 0x61, 0x61, 0x61, 0x61, 0x61, 0xc3, 0xa9]⟩]).map
        (fun r => (r.1.allocatedSlice, r.2.map (·.slice []))) = some (some [], [[]]) := by
    decide
  rw [hrun, Option.map_some, halloc, Option.some_inj, Prod.mk.injEq, Option.some_inj] at hread
  rcases hread with ⟨rfl, hread⟩
  cases hvalues with
  | cons hvalue hrest =>
    cases hrest
    rw [List.map_singleton, hvalue] at hread
    cases hread

end Builder

end Funbun.Semver
