import Funbun.Semver.Buf
import Funbun.Semver.StringBuilderProofs

/-! What a handle stands for.

The pool has the first string of each hash, so a handle stands for its string exactly if no other string had the hash
before. The bytes of a handle never change. -/
namespace Funbun.Semver
open SemverString Library

namespace SemverString

theorem isInline_packed (addr : Nat) (in_ : Slice) : (packed addr in_).isInline = false := by
  have hoff : (Pointer.init addr in_).off < 2 ^ 32 := by
    have hlt : (in_.addr - addr : Int) % UInt32.size < UInt32.size := Int.emod_lt_of_pos _ (by decide)
    have hnonneg : 0 ≤ (in_.addr - addr : Int) % UInt32.size := Int.emod_nonneg _ (by decide)
    show ((in_.addr - addr : Int) % UInt32.size).toNat < 4294967296
    have hsize : (UInt32.size : Int) = 4294967296 := rfl
    omega
  have hlen : in_.bytes.length % 2 ^ 31 < 2 ^ 31 := Nat.mod_lt _ (by decide)
  have hbytes : (packed addr in_).bytes =
      leBytes 8 ((Pointer.init addr in_).off + 2 ^ 32 * (in_.bytes.length % 2 ^ 31) + 2 ^ 63) := by
    rw [← packed_bits]
    rfl
  rw [isInline, hbytes, byte_seven (by omega)]
  exact beq_false_of_ne (and_top (by omega) (by omega))

variable {text buf : List UInt8} {s : SemverString}

theorem canInline_cases (h : canInline text = true) :
    text.length < maxInlineLen ∨ text.length = maxInlineLen ∧ (text.getD 7 0).toNat < 128 := by
  unfold canInline at h
  split_ifs at h with hlt heq
  · exact .inl hlt
  · refine .inr ⟨heq, ?_⟩
    by_contra hge
    exact and_top (Nat.not_lt.1 hge) (UInt8.toNat_lt _) (by simpa using h)

/-- A short string, and zeros up to its eight bytes -/
theorem initInline_bytes (h : text.length ≤ 8) :
    (initInline text).bytes = text ++ .replicate (8 - text.length) 0 := by
  show (text ++ List.replicate 8 0).take 8 = _
  rw [List.take_append, List.take_of_length_le h, List.take_replicate, Nat.min_eq_left (Nat.sub_le _ _)]

theorem ext_bytes {s s' : SemverString} (h : s.bytes = s'.bytes) : s = s' := by
  cases s
  cases s'
  cases h
  rfl

theorem init_eq_initInline (in_ : Slice) (h : canInline in_.bytes = true) (addr : Nat) :
    init addr in_ = initInline in_.bytes := by
  apply ext_bytes
  rcases canInline_cases h with hlt | ⟨heq, htop⟩
  · rw [initInline_bytes (Nat.le_of_lt hlt), init, dif_pos hlt]
    rfl
  · rw [initInline_bytes (Nat.le_of_eq heq), init, dif_neg (Nat.not_lt.mpr (Nat.le_of_eq heq.symm)), dif_pos ⟨heq, htop⟩]
    show in_.bytes = in_.bytes ++ List.replicate (8 - in_.bytes.length) 0
    rw [heq]
    exact (List.append_nil _).symm

theorem isInline_initInline (h : canInline text = true) : (initInline text).isInline = true := by
  have hle := Builder.canInline_le h
  have hlast : ((initInline text).bytes.getD 7 0).toNat < 128 := by
    rw [initInline_bytes hle]
    rcases canInline_cases h with hlt | ⟨heq, htop⟩
    · have hlt : text.length < 8 := hlt
      rw [List.getD_eq_getElem?_getD, List.getElem?_append_right (by omega), List.getElem?_replicate]
      split <;> decide
    · rw [heq]
      simpa [maxInlineLen] using htop
  rw [isInline, and_top_of_lt hlast]
  rfl

/-- A part of the buffer, with its place -/
def Placed (s : SemverString) (text buf : List UInt8) : Prop :=
  ∃ addr off, s = packed addr ⟨addr + off, text⟩ ∧ off + text.length ≤ buf.length ∧
    (buf.drop off).take text.length = text

theorem Placed.append (h : s.Placed text buf) (more : List UInt8) :
    s.Placed text (buf ++ more) := by
  obtain ⟨addr, off, rfl, hle, hpart⟩ := h
  refine ⟨addr, off, rfl, ?_, ?_⟩
  · rw [List.length_append]
    exact hle.trans (Nat.le_add_right _ _)
  · rw [List.drop_append_of_le_length (by omega), List.take_append_of_le_length, hpart]
    rw [List.length_drop]
    omega

theorem Placed.slice_eq (h : s.Placed text buf) (hsize : buf.length < 2 ^ 31) :
    s.slice buf = text := by
  obtain ⟨addr, off, rfl, hle, hpart⟩ := h
  have hsize' : (2 : Nat) ^ 31 < UInt32.size := by decide
  exact slice_packed_at hle hpart (by omega) (by omega)

theorem Placed.isInline (h : s.Placed text buf) : s.isInline = false := by
  obtain ⟨addr, off, rfl, -⟩ := h
  exact isInline_packed _ _

theorem placed_initAppend (addr : Nat) (buf text : List UInt8) :
    (initAppend addr buf text).2.Placed text (initAppend addr buf text).1 := by
  refine ⟨addr, buf.length, ?_, ?_, ?_⟩
  · show packed addr ⟨addr + ((buf ++ text).length - text.length), text⟩ = _
    rw [List.length_append, Nat.add_sub_cancel]
  · show buf.length + text.length ≤ (buf ++ text).length
    rw [List.length_append]
  · show ((buf ++ text).drop buf.length).take text.length = text
    rw [List.drop_left, List.take_length]

end SemverString

/-! ### Two handles -/

/-- What is known of a handle: it is its text, or a place where there is some text that is too long for that. -/
inductive Shown (s : SemverString) (text buf : List UInt8) : Prop where
  | inline (h : canInline text = true) (heq : s = initInline text)
  | placed (h : canInline text = false) (hplaced : s.Placed text buf)

namespace Shown
variable {s s' : SemverString} {text text' buf buf' : List UInt8}

theorem slice_eq (h : Shown s text buf) (hnul : 0 ∉ text) (hsize : buf.length < 2 ^ 31) : s.slice buf = text := by
  cases h with
  | inline h heq =>
    rw [heq, ← init_eq_initInline ⟨0, text⟩ h 0]
    exact slice_inline h hnul buf
  | placed h hplaced => exact hplaced.slice_eq hsize

theorem isInline_eq (h : Shown s text buf) : s.isInline = canInline text := by
  cases h with
  | inline h heq => rw [heq, h, isInline_initInline h]
  | placed h hplaced => rw [h, hplaced.isInline]

theorem handle_eq (h : Shown s text buf) (hinline : canInline text = true) : s = initInline text := by
  cases h with
  | inline h heq => exact heq
  | placed h hplaced => exact absurd (hinline.symm.trans h) (by decide)

theorem slice_long (h : Shown s text buf) (hinline : canInline text = false) (hsize : buf.length < 2 ^ 31) :
    s.slice buf = text := by
  cases h with
  | inline h heq => exact absurd (hinline.symm.trans h) (by decide)
  | placed h hplaced => exact hplaced.slice_eq hsize

/-- What is at a place is not empty, so the place is in the buffer. -/
theorem range_eq (h : Shown s text buf) (hinline : canInline text = false) (hsize : buf.length < 2 ^ 31) :
    s.ptr.off + s.ptr.len ≤ buf.length ∧ (buf.drop s.ptr.off).take s.ptr.len = text := by
  have hslice := h.slice_long hinline hsize
  have htop : ¬(s.bytes.getD 7 0).toNat &&& 128 = 0 := by
    intro hzero
    have hfalse := h.isInline_eq.trans hinline
    rw [isInline, hzero] at hfalse
    cases hfalse
  rw [slice, if_neg htop] at hslice
  split at hslice
  · rename_i hle
    exact ⟨hle, hslice⟩
  · rw [← hslice] at hinline
    cases hinline

/-- Handles are equal exactly if what they stand for is. -/
theorem eqlIn_iff (h : Shown s text buf) (h' : Shown s' text' buf') (hnul : 0 ∉ text) (hnul' : 0 ∉ text')
    (hsize : buf.length < 2 ^ 31) (hsize' : buf'.length < 2 ^ 31) : s.eqlIn s' buf buf' = true ↔ text = text' := by
  rw [eqlIn, h.isInline_eq, h'.isInline_eq]
  cases hinline : canInline text <;> cases hinline' : canInline text'
  · obtain ⟨hle, hrange⟩ := h.range_eq hinline hsize
    obtain ⟨hle', hrange'⟩ := h'.range_eq hinline' hsize'
    simp [hle, hle', hrange, hrange']
  · refine iff_of_false (by simp) ?_
    rintro rfl
    exact Bool.false_ne_true (hinline.symm.trans hinline')
  · refine iff_of_false (by simp) ?_
    rintro rfl
    exact Bool.false_ne_true (hinline'.symm.trans hinline)
  · have hbytes : s.bytes = s'.bytes ↔ text = text' := by
      constructor
      · intro heq
        -- the bytes are the text, whatever the buffers are
        have hshown : Shown s text buf' := .inline hinline (h.handle_eq hinline)
        have hself := hshown.slice_eq hnul hsize'
        rw [← hself, ext_bytes heq, h'.slice_eq hnul' hsize']
      · rintro rfl
        rw [h.handle_eq hinline, h'.handle_eq hinline]
    simpa using hbytes

end Shown

/-! ### Runs -/

theorem Shown.append {s : SemverString} {text buf : List UInt8} (h : Shown s text buf) (more : List UInt8) :
    Shown s text (buf ++ more) := by
  cases h with
  | inline h heq => exact .inline h heq
  | placed h hplaced => exact .placed h (hplaced.append more)

section Run
variable (stringHash : List UInt8 → UInt64)

/-- The first string of the hash that does not fit in a handle -/
def firstWith (strs : List (List UInt8)) (hash : UInt64) : Option (List UInt8) :=
  strs.find? fun s => !canInline s && stringHash s == hash

variable {strs : List (List UInt8)} {hash : UInt64} {st : Storage}

theorem firstWith_append_some {first : List UInt8} (h : firstWith stringHash strs hash = some first) (str : List UInt8) :
    firstWith stringHash (strs ++ [str]) hash = some first := by
  rw [firstWith, List.find?_append]
  exact congrArg (Option.or · _) h

theorem firstWith_append_none (h : firstWith stringHash strs hash = none)
    (str : List UInt8) : firstWith stringHash (strs ++ [str]) hash =
      if !canInline str && stringHash str == hash then some str else none := by
  rw [firstWith, List.find?_append]
  refine (congrArg (Option.or · _) h).trans ?_
  rw [Option.none_or, List.find?_singleton]

theorem firstWith_spec {first : List UInt8} (h : firstWith stringHash strs hash = some first) :
    first ∈ strs ∧ canInline first = false ∧ stringHash first = hash := by
  have hp := List.find?_some h
  rw [Bool.and_eq_true, Bool.not_eq_true', beq_iff_eq] at hp
  exact ⟨List.mem_of_find?_eq_some h, hp⟩

/-- The pool has a place for the first string of every hash. -/
structure Pooled (strs : List (List UInt8)) (b : Buf) : Prop where
  found : ∀ hash value, b.pool.lookup hash = some value →
    ∃ first, firstWith stringHash strs hash = some first ∧ value.Placed first b.bytes
  missing : ∀ hash, b.pool.lookup hash = none → firstWith stringHash strs hash = none

/-- A string is stored as itself if it fits in a handle, and as the first one of its hash if it does not. -/
theorem Pooled.append {b : Buf} (h : Pooled stringHash strs b) (addr : Nat) (str : List UInt8) :
    Pooled stringHash (strs ++ [str]) (b.append stringHash addr str).1 ∧
      (∃ more, (b.append stringHash addr str).1.bytes = b.bytes ++ more) ∧
      ∃ text, Shown (b.append stringHash addr str).2 text (b.append stringHash addr str).1.bytes ∧
        (canInline str = true ∧ text = str ∨
          canInline str = false ∧ firstWith stringHash (strs ++ [str]) (stringHash str) = some text) := by
  unfold Buf.append Buf.appendWithHash
  cases hinline : canInline str with
  | true =>
    rw [if_pos rfl]
    refine ⟨⟨fun hash value hvalue => ?_, fun hash hnone => ?_⟩, ⟨[], (List.append_nil _).symm⟩, str, .inline hinline rfl,
      .inl ⟨rfl, rfl⟩⟩
    · obtain ⟨first, hfirst, hplaced⟩ := h.found hash value hvalue
      exact ⟨first, firstWith_append_some stringHash hfirst str, hplaced⟩
    · rw [firstWith_append_none stringHash (h.missing hash hnone), hinline]
      rfl
  | false =>
    rw [if_neg Bool.false_ne_true]
    cases hlookup : b.pool.lookup (stringHash str) with
    | some value =>
      obtain ⟨first, hfirst, hplaced⟩ := h.found _ value hlookup
      refine ⟨⟨fun hash value hvalue => ?_, fun hash hnone => ?_⟩, ⟨[], (List.append_nil _).symm⟩, first,
        .placed (firstWith_spec stringHash hfirst).2.1 hplaced, .inr ⟨rfl, firstWith_append_some stringHash hfirst str⟩⟩
      · obtain ⟨first, hfirst, hplaced⟩ := h.found hash value hvalue
        exact ⟨first, firstWith_append_some stringHash hfirst str, hplaced⟩
      · have hne : stringHash str ≠ hash := by
          rintro rfl
          exact nomatch hlookup.symm.trans hnone
        rw [firstWith_append_none stringHash (h.missing hash hnone), beq_false_of_ne hne, Bool.and_false]
        rfl
    | none =>
      have hplaced := placed_initAppend addr b.bytes str
      have hfirst : firstWith stringHash (strs ++ [str]) (stringHash str) = some str := by
        rw [firstWith_append_none stringHash (h.missing _ hlookup), hinline, beq_self_eq_true]
        rfl
      refine ⟨⟨fun hash value hvalue => ?_, fun hash hnone => ?_⟩, ⟨str, rfl⟩, str, .placed hinline hplaced,
        .inr ⟨rfl, hfirst⟩⟩
      · change List.lookup hash ((stringHash str, (initAppend addr b.bytes str).2) :: b.pool) = some value at hvalue
        rw [List.lookup_cons] at hvalue
        split at hvalue
        · rename_i heq
          cases hvalue
          exact ⟨str, (beq_iff_eq.mp heq) ▸ hfirst, hplaced⟩
        · obtain ⟨first, hfirst, hplaced⟩ := h.found hash value hvalue
          exact ⟨first, firstWith_append_some stringHash hfirst str, hplaced.append str⟩
      · change List.lookup hash ((stringHash str, (initAppend addr b.bytes str).2) :: b.pool) = none at hnone
        rw [List.lookup_cons] at hnone
        split at hnone
        · cases hnone
        · rename_i hne
          have hne' : (stringHash str == hash) = false := by rw [BEq.comm, hne]
          rw [firstWith_append_none stringHash (h.missing hash hnone), hne', Bool.and_false]
          rfl

/-- What is known of what is held -/
structure Kept (strs : List (List UInt8)) (st : Storage) : Prop where
  pooled : Pooled stringHash strs st.buf
  held : ∀ e ∈ st.held, ∃ text, Shown e.handle text st.buf.bytes ∧
    (text = e.text ∨ e.text ∈ strs ∧ canInline e.text = false ∧
      firstWith stringHash strs (stringHash e.text) = some text)
  entry : ∀ str ∈ strs, canInline str = false → ∃ e ∈ st.held, e.text = str ∧
    ∃ text, Shown e.handle text st.buf.bytes ∧ firstWith stringHash strs (stringHash str) = some text

/-- The strings that are appended -/
def appended (stores : List (Nat × Store)) : List (List UInt8) :=
  stores.filterMap fun s =>
    match s.2 with
    | .append str | .appendExternal str => some str
    | .init _ _ => none

theorem kept_ofBytes (bytes : List UInt8) : Kept stringHash [] (.ofBytes bytes) :=
  ⟨⟨nofun, fun _ _ => rfl⟩, nofun, nofun⟩

theorem Kept.append (h : Kept stringHash strs st) (addr : Nat)
    (str : List UInt8) : Kept stringHash (strs ++ [str]) (st.store stringHash addr (.append str)) := by
  obtain ⟨hpooled, ⟨more, hmore⟩, text, hshown, htext⟩ := h.pooled.append stringHash addr str
  refine ⟨hpooled, fun e he => ?_, fun s hs hinline => ?_⟩
  · rcases List.mem_cons.mp he with rfl | he
    · refine ⟨text, hshown, ?_⟩
      rcases htext with ⟨-, heq⟩ | ⟨hinline, hfirst⟩
      · exact .inl heq
      · exact .inr ⟨List.mem_append_right _ List.mem_cons_self, hinline, hfirst⟩
    · obtain ⟨text, hshown, htext⟩ := h.held e he
      refine ⟨text, hmore ▸ hshown.append more, ?_⟩
      rcases htext with heq | ⟨hmem, hinline, hfirst⟩
      · exact .inl heq
      · exact .inr ⟨List.mem_append_left _ hmem, hinline, firstWith_append_some stringHash hfirst str⟩
  · rcases List.mem_append.mp hs with hs | hs
    · obtain ⟨e, he, heq, text, hshown, hfirst⟩ := h.entry s hs hinline
      exact ⟨e, List.mem_cons_of_mem _ he, heq, text, hmore ▸ hshown.append more,
        firstWith_append_some stringHash hfirst str⟩
    · obtain rfl := List.mem_singleton.mp hs
      rcases htext with ⟨hin, -⟩ | ⟨-, hfirst⟩
      · exact absurd (hinline.symm.trans hin) Bool.false_ne_true
      · exact ⟨_, List.mem_cons_self, rfl, text, hshown, hfirst⟩

theorem Kept.init (h : Kept stringHash strs st) (addr off len : Nat) :
    Kept stringHash strs (st.store stringHash addr (.init off len)) := by
  refine ⟨h.pooled, fun e he => ?_, fun s hs hinline => ?_⟩
  · rcases List.mem_cons.mp he with rfl | he
    · refine ⟨(st.buf.bytes.drop off).take len, ?_, .inl rfl⟩
      generalize hin : (st.buf.bytes.drop off).take len = in_
      cases hinline : canInline in_ with
      | true => exact .inline hinline (init_eq_initInline ⟨addr + off, in_⟩ hinline addr)
      | false =>
        have hinit : SemverString.init addr ⟨addr + off, in_⟩ = SemverString.packed addr ⟨addr + off, in_⟩ :=
          init_of_not_inline hinline addr
        refine .placed hinline ⟨addr, off, hinit, ?_, ?_⟩
        · have hlength := congrArg List.length hin
          have hpos : 0 < in_.length := List.length_pos_of_ne_nil (by rintro rfl; cases hinline)
          rw [List.length_take, List.length_drop] at hlength
          show off + in_.length ≤ st.buf.bytes.length
          omega
        · show (st.buf.bytes.drop off).take in_.length = in_
          rw [← hin, List.length_take, List.take_eq_take_iff]
          omega
    · exact h.held e he
  · obtain ⟨e, he, hrest⟩ := h.entry s hs hinline
    exact ⟨e, List.mem_cons_of_mem _ he, hrest⟩

theorem Kept.run (h : Kept stringHash strs st) (stores : List (Nat × Store)) :
    Kept stringHash (strs ++ appended stores) (st.run stringHash stores) := by
  induction stores generalizing strs st with
  | nil =>
    rw [appended, List.filterMap_nil, List.append_nil]
    exact h
  | cons s stores ih =>
    obtain ⟨addr, store⟩ := s
    cases store with
    | append str =>
      have hrest := ih (h.append stringHash addr str)
      rw [List.append_assoc] at hrest
      exact hrest
    | appendExternal str =>
      have hrest := ih (h.append stringHash addr str)
      rw [List.append_assoc] at hrest
      exact hrest
    | init off len => exact ih (h.init stringHash addr off len)

theorem append_bytes (b : Buf) (addr : Nat) (str : List UInt8) :
    ∃ more, (b.append stringHash addr str).1.bytes = b.bytes ++ more := by
  unfold Buf.append Buf.appendWithHash
  split
  · exact ⟨[], (List.append_nil _).symm⟩
  · split
    · exact ⟨[], (List.append_nil _).symm⟩
    · exact ⟨str, rfl⟩

/-- The bytes that are there stay there. -/
theorem run_bytes (st : Storage) (stores : List (Nat × Store)) :
    ∃ more, (st.run stringHash stores).buf.bytes = st.buf.bytes ++ more := by
  induction stores generalizing st with
  | nil => exact ⟨[], (List.append_nil _).symm⟩
  | cons s stores ih =>
    obtain ⟨addr, store⟩ := s
    obtain ⟨rest, hrest⟩ := ih (st.store stringHash addr store)
    have happend (str : List UInt8) := append_bytes stringHash st.buf addr str
    cases store with
    | append str =>
      obtain ⟨more, hmore⟩ := happend str
      refine ⟨more ++ rest, hrest.trans ?_⟩
      rw [← List.append_assoc, ← hmore]
      rfl
    | appendExternal str =>
      obtain ⟨more, hmore⟩ := happend str
      refine ⟨more ++ rest, hrest.trans ?_⟩
      rw [← List.append_assoc, ← hmore]
      rfl
    | init off len => exact ⟨rest, hrest⟩

end Run

/-! ### Contents -/

namespace Storage

/-- Every handle stands for the bytes that were stored, also after more is stored. -/
def Exact (stringHash : List UInt8 → UInt64) (st : Storage) : Prop :=
  ∀ e ∈ st.held, ∀ more, (st.run stringHash more).buf.bytes.length < 2 ^ 31 →
    e.handle.slice (st.run stringHash more).buf.bytes = e.text

/-- Handles of two buffers compare as what was stored. -/
def Compares (st st' : Storage) : Prop :=
  ∀ e ∈ st.held, ∀ e' ∈ st'.held,
    (e.handle.eqlIn e'.handle st.buf.bytes st'.buf.bytes = true ↔ e.text = e'.text) ∧
      e.handle.orderIn e'.handle st.buf.bytes st'.buf.bytes = compare e.text e'.text

end Storage

/-- No two strings of one hash are appended that do not fit in a handle. -/
def CollisionFree (stringHash : List UInt8 → UInt64) (stores : List (Nat × Store)) : Prop :=
  ∀ s ∈ appended stores, ∀ t ∈ appended stores, canInline s = false → canInline t = false →
    stringHash s = stringHash t → s = t

section Contents
variable {stringHash : List UInt8 → UInt64} {bytes : List UInt8} {stores : List (Nat × Store)}

theorem shown_of_collisionFree (h : CollisionFree stringHash stores) :
    ∀ e ∈ ((Storage.ofBytes bytes).run stringHash stores).held,
      Shown e.handle e.text ((Storage.ofBytes bytes).run stringHash stores).buf.bytes := by
  intro e he
  obtain ⟨text, hshown, htext⟩ := ((kept_ofBytes stringHash bytes).run stringHash stores).held e he
  rcases htext with rfl | ⟨hmem, hinline, hfirst⟩
  · exact hshown
  · obtain ⟨hfirstMem, hfirstInline, hhash⟩ := firstWith_spec stringHash hfirst
    obtain rfl := h text hfirstMem e.text hmem hfirstInline hinline hhash
    exact hshown

theorem collisionFree_of_exact (hsize : ((Storage.ofBytes bytes).run stringHash stores).buf.bytes.length < 2 ^ 31)
    (h : ((Storage.ofBytes bytes).run stringHash stores).Exact stringHash) : CollisionFree stringHash stores := by
  have hkept : Kept stringHash (appended stores) ((Storage.ofBytes bytes).run stringHash stores) :=
    (kept_ofBytes stringHash bytes).run stringHash stores
  have hown (s : List UInt8) (hs : s ∈ appended stores) (hinline : canInline s = false) :
      firstWith stringHash (appended stores) (stringHash s) = some s := by
    obtain ⟨e, he, rfl, text, hshown, hfirst⟩ := hkept.entry s hs hinline
    have hslice := hshown.slice_long (firstWith_spec stringHash hfirst).2.1 hsize
    have hexact := h e he [] hsize
    rw [hfirst, ← hslice]
    exact congrArg some hexact
  intro s hs t ht hsInline htInline hhash
  have hfirst := hown s hs hsInline
  rw [hhash, hown t ht htInline] at hfirst
  exact (Option.some.inj hfirst).symm

theorem exact_of_collisionFree (h : CollisionFree stringHash stores)
    (hnul : ∀ e ∈ ((Storage.ofBytes bytes).run stringHash stores).held, 0 ∉ e.text) :
    ((Storage.ofBytes bytes).run stringHash stores).Exact stringHash := by
  intro e he more hsize
  obtain ⟨rest, hrest⟩ := run_bytes stringHash ((Storage.ofBytes bytes).run stringHash stores) more
  have hshown := (shown_of_collisionFree h e he).append rest
  rw [← hrest] at hshown
  exact hshown.slice_eq (hnul e he) hsize

/-- **Handles compare by what is stored, exactly if** no hash is that of two strings that do not fit in a handle. -/
theorem exact_iff_collisionFree (stringHash : List UInt8 → UInt64) (bytes bytes' : List UInt8)
    (stores stores' : List (Nat × Store))
    (hnul : ∀ e ∈ ((Storage.ofBytes bytes).run stringHash stores).held, 0 ∉ e.text)
    (hnul' : ∀ e ∈ ((Storage.ofBytes bytes').run stringHash stores').held, 0 ∉ e.text)
    (hsize : ((Storage.ofBytes bytes).run stringHash stores).buf.bytes.length < 2 ^ 31)
    (hsize' : ((Storage.ofBytes bytes').run stringHash stores').buf.bytes.length < 2 ^ 31) :
    ((Storage.ofBytes bytes).run stringHash stores).Exact stringHash ∧
        ((Storage.ofBytes bytes').run stringHash stores').Exact stringHash ∧
        ((Storage.ofBytes bytes).run stringHash stores).Compares ((Storage.ofBytes bytes').run stringHash stores') ↔
      CollisionFree stringHash stores ∧ CollisionFree stringHash stores' := by
  constructor
  · rintro ⟨hexact, hexact', -⟩
    exact ⟨collisionFree_of_exact hsize hexact, collisionFree_of_exact hsize' hexact'⟩
  · rintro ⟨hfree, hfree'⟩
    refine ⟨exact_of_collisionFree hfree hnul, exact_of_collisionFree hfree' hnul', fun e he e' he' => ⟨?_, ?_⟩⟩
    · exact (shown_of_collisionFree hfree e he).eqlIn_iff (shown_of_collisionFree hfree' e' he') (hnul e he) (hnul' e' he')
        hsize hsize'
    · rw [SemverString.orderIn, (shown_of_collisionFree hfree e he).slice_eq (hnul e he) hsize,
        (shown_of_collisionFree hfree' e' he').slice_eq (hnul' e' he') hsize']

/-- Strings of ten, one and nine bytes, where the hash is the length -/
theorem exact_iff_collisionFree_lengths :
    let stores := [(0, Store.append (.replicate 10 97)), (0, .append [98]), (64, .appendExternal (.replicate 9 99))]
    let st := (Storage.ofBytes []).run (fun s => .ofNat s.length) stores
    st.Exact (fun s => .ofNat s.length) ∧ st.Compares st := by
  have hall := (exact_iff_collisionFree (fun s => .ofNat s.length) [] []
    [(0, .append (.replicate 10 97)), (0, .append [98]), (64, .appendExternal (.replicate 9 99))]
    [(0, .append (.replicate 10 97)), (0, .append [98]), (64, .appendExternal (.replicate 9 99))]
    (by decide +kernel) (by decide +kernel) (by decide +kernel) (by decide +kernel)).mpr
    ⟨by unfold CollisionFree; decide +kernel, by unfold CollisionFree; decide +kernel⟩
  exact ⟨hall.1, hall.2.2⟩

/-- Two strings of one hash: the second is given the handle of the first. -/
theorem not_exact_collision :
    let st := (Storage.ofBytes []).run (fun _ => 7) [(0, .append (.replicate 9 97)), (0, .append (.replicate 9 98))]
    (∀ e ∈ st.held, 0 ∉ e.text) ∧ st.buf.bytes.length < 2 ^ 31 ∧
      st.held.map (fun e => (e.text, e.handle.slice st.buf.bytes)) =
        [(.replicate 9 98, .replicate 9 97), (.replicate 9 97, .replicate 9 97)] ∧
      ¬st.Exact fun _ => 7 := by
  refine ⟨by decide +kernel, by decide +kernel, by decide +kernel, fun h => ?_⟩
  have hslice := h _ List.mem_cons_self [] (by decide +kernel)
  revert hslice
  decide +kernel

end Contents

end Funbun.Semver
