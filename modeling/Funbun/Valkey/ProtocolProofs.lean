import Funbun.Valkey.Protocol

/-! The scanner skips what the parser reads. -/
namespace Funbun.Valkey
open Library
open Strings (parseInt parseWithSign toI64)

/-! ### Reading one thing after another -/

section Run
variable {α β : Type}

theorem bind_run_ok {x : Read α} {f : α → Read β} {r r' : ValkeyReader} {a : α} (h : x r = (.ok a, r')) :
    (x >>= f) r = f a r' := by
  show (StateT.bind x (ExceptT.bindCont f)) r = _
  simp only [StateT.bind, h]
  rfl

theorem bind_run_error {x : Read α} {f : α → Read β} {r r' : ValkeyReader} {e : Stop} (h : x r = (.error e, r')) :
    (x >>= f) r = (.error e, r') := by
  show (StateT.bind x (ExceptT.bindCont f)) r = _
  simp only [StateT.bind, h]
  rfl

theorem get_run (r : ValkeyReader) : (get : Read ValkeyReader) r = (.ok r, r) := rfl

theorem fail_run (err : RedisError) (r : ValkeyReader) : (fail err : Read α) r = (.error (.error err), r) := rfl

/-- What is read does not depend on what comes later, unless too little is there. -/
def Steady (x : Read α) : Prop :=
  ∀ (buffer : List UInt8) (pos : Nat), pos ≤ buffer.length →
    (∃ a pos', pos ≤ pos' ∧ pos' ≤ buffer.length ∧ ∀ more, x ⟨buffer ++ more, pos, 0⟩ = (.ok a, ⟨buffer ++ more, pos', 0⟩)) ∨
    (∃ err, err ≠ .invalidResponse ∧ ∀ more, ∃ r, x ⟨buffer ++ more, pos, 0⟩ = (.error (.error err), r)) ∨
    ∃ r, x ⟨buffer, pos, 0⟩ = (.error (.error .invalidResponse), r)

theorem steady_pure (a : α) : Steady (pure a : Read α) := fun _ pos hpos => .inl ⟨a, pos, Nat.le_refl pos, hpos, fun _ => rfl⟩

theorem steady_fail (err : RedisError) : Steady (fail err : Read α) := by
  intro buffer pos _
  by_cases herr : err = .invalidResponse
  · subst herr
    exact .inr (.inr ⟨_, rfl⟩)
  · exact .inr (.inl ⟨err, herr, fun _ => ⟨_, rfl⟩⟩)

theorem Steady.bind {x : Read α} {f : α → Read β} (hx : Steady x) (hf : ∀ a, Steady (f a)) : Steady (x >>= f) := by
  intro buffer pos hpos
  rcases hx buffer pos hpos with ⟨a, pos', hle, hlength, hrun⟩ | ⟨err, herr, hrun⟩ | ⟨r, hrun⟩
  · rcases hf a buffer pos' hlength with ⟨b, pos'', hle', hlength', hrun'⟩ | ⟨err, herr, hrun'⟩ | ⟨r, hrun'⟩
    · refine .inl ⟨b, pos'', Nat.le_trans hle hle', hlength', fun more => ?_⟩
      rw [bind_run_ok (hrun more), hrun']
    · refine .inr (.inl ⟨err, herr, fun more => ?_⟩)
      rw [bind_run_ok (hrun more)]
      exact hrun' more
    · refine .inr (.inr ⟨r, ?_⟩)
      have hnow := hrun []
      rw [List.append_nil] at hnow
      rw [bind_run_ok hnow, hrun']
  · refine .inr (.inl ⟨err, herr, fun more => ?_⟩)
    obtain ⟨r, hr⟩ := hrun more
    exact ⟨r, bind_run_error hr⟩
  · exact .inr (.inr ⟨r, bind_run_error hrun⟩)

end Run

/-! ### Lines -/

/-- A line break at an index -/
def IsCrlf (bytes : List UInt8) (i : Nat) : Prop := bytes[i]? = some cr ∧ bytes[i + 1]? = some lf

variable {bytes buffer : List UInt8} {i pos : Nat}

theorem IsCrlf.lt (h : IsCrlf bytes i) : i + 1 < bytes.length :=
  (List.getElem?_eq_some_iff.1 h.2).1

theorem isCrlf_append {bytes more : List UInt8} (h : i + 1 < bytes.length) :
    IsCrlf (bytes ++ more) i ↔ IsCrlf bytes i := by
  unfold IsCrlf
  rw [List.getElem?_append_left (Nat.lt_of_succ_lt h), List.getElem?_append_left h]

theorem findCrlf_some {i n k : Nat} (h : findCrlf bytes i n = some k) :
    ∃ j < n, k = i + j ∧ IsCrlf bytes j ∧ ∀ l < j, ¬IsCrlf bytes l := by
  induction bytes generalizing i n with
  | nil => cases n <;> cases h
  | cons byte bytes ih =>
    cases n with
    | zero => cases h
    | succ n =>
      unfold findCrlf at h
      split at h
      · rename_i hbyte
        cases h
        refine ⟨0, Nat.succ_pos n, rfl, ⟨congrArg some hbyte.1, ?_⟩, fun l hl => absurd hl (Nat.not_lt_zero l)⟩
        rw [Nat.zero_add, List.getElem?_cons_succ, ← List.head?_eq_getElem?]
        exact hbyte.2
      · rename_i hbyte
        obtain ⟨j, hj, rfl, hcrlf, hbefore⟩ := ih h
        refine ⟨j + 1, Nat.succ_lt_succ hj, by omega, hcrlf, fun l hl => ?_⟩
        cases l with
        | zero =>
          intro hzero
          apply hbyte
          refine ⟨Option.some.inj hzero.1, ?_⟩
          rw [List.head?_eq_getElem?]
          exact hzero.2
        | succ l => exact hbefore l (Nat.lt_of_succ_lt_succ hl)

theorem findCrlf_none {i n : Nat} (h : findCrlf bytes i n = none) : ∀ j < n, ¬IsCrlf bytes j := by
  induction bytes generalizing i n with
  | nil => exact fun j _ hj => absurd hj.lt (Nat.not_lt_zero _)
  | cons byte bytes ih =>
    intro j hj
    cases n with
    | zero => exact absurd hj (Nat.not_lt_zero j)
    | succ n =>
      unfold findCrlf at h
      split at h
      · cases h
      · rename_i hbyte
        cases j with
        | zero =>
          intro hzero
          apply hbyte
          refine ⟨Option.some.inj hzero.1, ?_⟩
          rw [List.head?_eq_getElem?]
          exact hzero.2
        | succ j => exact ih h j (Nat.lt_of_succ_lt_succ hj)

/-- The end of the first line, if that is not too long -/
structure Line (bytes : List UInt8) (i : Nat) : Prop where
  crlf : IsCrlf bytes i
  first : ∀ j < i, ¬IsCrlf bytes j
  short : i ≤ maxLineLen

/-- There is no line break before an index, as far as these bytes tell. -/
def Unbroken (bytes : List UInt8) (skip : Nat) : Prop := ∀ j < skip, ¬IsCrlf bytes j

theorem Line.append (h : Line bytes i) (more : List UInt8) : Line (bytes ++ more) i where
  crlf := (isCrlf_append h.crlf.lt).2 h.crlf
  first := by
    intro j hj hcrlf
    have hlt := h.crlf.lt
    exact h.first j hj ((isCrlf_append (by omega)).1 hcrlf)
  short := h.short

theorem Line.unique {i j : Nat} (hi : Line bytes i) (hj : Line bytes j) : i = j := by
  rcases Nat.lt_trichotomy i j with hlt | heq | hgt
  · exact absurd hi.crlf (hj.first i hlt)
  · exact heq
  · exact absurd hj.crlf (hi.first j hgt)

theorem isCrlf_drop (start i : Nat) : IsCrlf (bytes.drop start) i ↔ IsCrlf bytes (start + i) := by
  unfold IsCrlf
  rw [List.getElem?_drop, List.getElem?_drop, Nat.add_assoc]

/-- What the reader finds, where it need not start at the front -/
theorem readUntilCrlf_run {pos skip : Nat} (hpos : pos ≤ buffer.length) (hskip : Unbroken (buffer.drop pos) skip) :
    (∃ i, Line (buffer.drop pos) i ∧
      readUntilCrlf ⟨buffer, pos, skip⟩ = (.ok ((buffer.drop pos).take i), ⟨buffer, pos + i + 2, 0⟩)) ∨
    (∀ i, ¬Line (buffer.drop pos) i) ∧
      readUntilCrlf ⟨buffer, pos, skip⟩ =
        (.error (.error (if maxLineLen + 1 < (buffer.drop pos).length then .lineTooLong else .invalidResponse)),
          ⟨buffer, pos, 0⟩) := by
  have hrun : readUntilCrlf ⟨buffer, pos, skip⟩ =
      (findCrlf ((buffer.drop pos).drop (min skip (min (buffer.drop pos).length (maxLineLen + 1))))
          (min skip (min (buffer.drop pos).length (maxLineLen + 1)))
          (min (buffer.drop pos).length (maxLineLen + 1) -
            min skip (min (buffer.drop pos).length (maxLineLen + 1)))).elim
        (.error (.error (if maxLineLen + 1 < (buffer.drop pos).length then .lineTooLong else .invalidResponse)),
          ⟨buffer, pos, 0⟩)
        fun i => (.ok ((buffer.drop pos).take i), ⟨buffer, pos + i + 2, 0⟩) := by
    have hnot : ¬buffer.length < pos := Nat.not_lt.2 hpos
    show (if buffer.length < pos then _ else _ : Read (List UInt8)) ⟨buffer, pos, skip⟩ = _
    rw [if_neg hnot]
    cases hfind : findCrlf ((buffer.drop pos).drop (min skip (min (buffer.drop pos).length (maxLineLen + 1))))
          (min skip (min (buffer.drop pos).length (maxLineLen + 1)))
          (min (buffer.drop pos).length (maxLineLen + 1) -
            min skip (min (buffer.drop pos).length (maxLineLen + 1))) with
    | none => simp only; rfl
    | some i => simp only; rfl
  rw [hrun]
  generalize buffer.drop pos = rest at *
  cases hfind : findCrlf (rest.drop (min skip (min rest.length (maxLineLen + 1)))) (min skip (min rest.length (maxLineLen + 1)))
      (min rest.length (maxLineLen + 1) - min skip (min rest.length (maxLineLen + 1))) with
  | some k =>
    obtain ⟨j, hj, rfl, hcrlf, hbefore⟩ := findCrlf_some hfind
    rw [isCrlf_drop] at hcrlf
    refine .inl ⟨_, ⟨hcrlf, fun l hl => ?_, by omega⟩, rfl⟩
    by_cases hl' : l < min skip (min rest.length (maxLineLen + 1))
    · exact hskip l (by omega)
    · have hdrop := hbefore (l - min skip (min rest.length (maxLineLen + 1))) (by omega)
      rwa [isCrlf_drop, Nat.add_sub_cancel' (Nat.not_lt.1 hl')] at hdrop
  | none =>
    refine .inr ⟨fun i hline => ?_, rfl⟩
    have hlt := hline.crlf.lt
    have hshort := hline.short
    by_cases hi : i < min skip (min rest.length (maxLineLen + 1))
    · exact hskip i (by omega) hline.crlf
    · refine findCrlf_none hfind (i - min skip (min rest.length (maxLineLen + 1))) (by omega) ?_
      rw [isCrlf_drop, Nat.add_sub_cancel' (Nat.not_lt.1 hi)]
      exact hline.crlf

theorem unbroken_zero (bytes : List UInt8) : Unbroken bytes 0 := fun j hj => absurd hj (Nat.not_lt_zero j)

theorem readUntilCrlf_skip {pos skip : Nat} (hpos : pos ≤ buffer.length) (hskip : Unbroken (buffer.drop pos) skip) :
    readUntilCrlf ⟨buffer, pos, skip⟩ = readUntilCrlf ⟨buffer, pos, 0⟩ := by
  rcases readUntilCrlf_run hpos hskip with ⟨i, hline, hrun⟩ | ⟨hnone, hrun⟩
  · rcases readUntilCrlf_run hpos (unbroken_zero _) with ⟨j, hline', hrun'⟩ | ⟨hnone, _⟩
    · rw [hrun, hrun', hline.unique hline']
    · exact absurd hline (hnone i)
  · rcases readUntilCrlf_run hpos (unbroken_zero _) with ⟨j, hline', _⟩ | ⟨_, hrun'⟩
    · exact absurd hline' (hnone j)
    · rw [hrun, hrun']

/-- A line that is too long does not end later. -/
theorem not_line_append (h : ∀ i, ¬Line bytes i) (hlong : maxLineLen + 1 < bytes.length)
    (more : List UInt8) (i : Nat) : ¬Line (bytes ++ more) i := by
  intro hline
  have hshort := hline.short
  refine h i ⟨(isCrlf_append (by omega)).1 hline.crlf, fun j hj hcrlf => ?_, hshort⟩
  exact hline.first j hj ((isCrlf_append (by omega)).2 hcrlf)

/-! ### What is read from the front stays read -/

theorem readByte_run (r : ValkeyReader) :
    readByte r = r.buffer[r.pos]?.elim (.error (.error .invalidResponse), r) fun byte => (.ok byte, {r with pos := r.pos + 1}) := by
  unfold readByte
  rw [bind_run_ok (get_run r)]
  cases r.buffer[r.pos]? <;> rfl

theorem steady_readByte : Steady readByte := by
  intro buffer pos hpos
  by_cases hlt : pos < buffer.length
  · refine .inl ⟨buffer[pos], pos + 1, Nat.le_succ pos, hlt, fun more => ?_⟩
    have hget : (buffer ++ more)[pos]? = some buffer[pos] := by
      rw [List.getElem?_append_left hlt, List.getElem?_eq_getElem hlt]
    rw [readByte_run, hget, Option.elim_some]
  · refine .inr (.inr ⟨⟨buffer, pos, 0⟩, ?_⟩)
    rw [readByte_run, List.getElem?_eq_none (Nat.not_lt.1 hlt), Option.elim_none]

theorem steady_readUntilCrlf : Steady readUntilCrlf := by
  intro buffer pos hpos
  have hdrop (more : List UInt8) : (buffer ++ more).drop pos = buffer.drop pos ++ more := List.drop_append_of_le_length hpos
  have hlength (more : List UInt8) : pos ≤ (buffer ++ more).length := by
    rw [List.length_append]
    omega
  rcases readUntilCrlf_run hpos (unbroken_zero _) with ⟨i, hline, hrun⟩ | ⟨hnone, hrun⟩
  · have hlt := hline.crlf.lt
    rw [List.length_drop] at hlt
    refine .inl ⟨(buffer.drop pos).take i, pos + i + 2, by omega, by omega, fun more => ?_⟩
    rcases readUntilCrlf_run (hlength more) (unbroken_zero _) with ⟨j, hline', hrun'⟩ | ⟨hnone, _⟩
    · rw [hdrop] at hline' hrun'
      have heq : j = i := hline'.unique (hline.append more)
      rw [hrun', heq, List.take_append_of_le_length (by rw [List.length_drop]; omega)]
    · rw [hdrop] at hnone
      exact absurd (hline.append more) (hnone i)
  · by_cases hlong : maxLineLen + 1 < (buffer.drop pos).length
    · refine .inr (.inl ⟨.lineTooLong, by decide, fun more => ?_⟩)
      rcases readUntilCrlf_run (hlength more) (unbroken_zero _) with ⟨j, hline', _⟩ | ⟨_, hrun'⟩
      · rw [hdrop] at hline'
        exact absurd hline' (not_line_append hnone hlong more j)
      · rw [if_pos (by rw [hdrop, List.length_append]; omega)] at hrun'
        exact ⟨_, hrun'⟩
    · rw [if_neg hlong] at hrun
      exact .inr (.inr ⟨_, hrun⟩)

theorem steady_readInteger : Steady readInteger := by
  apply steady_readUntilCrlf.bind
  intro str
  split
  · exact steady_pure _
  · exact steady_fail _

theorem steady_readLen (depth : Nat) : Steady (readLen depth) := by
  unfold readLen
  split
  · exact steady_fail _
  · exact steady_readInteger

theorem usize_eq {n : Int} (h : ¬n < 0) : usize n = pure n.toNat := if_pos (Int.not_lt.1 h)

theorem skipBlob_run (hpos : pos ≤ buffer.length) (invalid : RedisError) (len : Nat) :
    (buffer.length < pos + len + 2 ∧
      skipBlob invalid len ⟨buffer, pos, 0⟩ = (.error (.error .invalidResponse), ⟨buffer, pos, 0⟩)) ∨
    pos + len + 2 ≤ buffer.length ∧ skipBlob invalid len ⟨buffer, pos, 0⟩ =
      if buffer[pos + len]? = some cr ∧ buffer[pos + len + 1]? = some lf then (.ok (), ⟨buffer, pos + len + 2, 0⟩)
      else (.error (.error invalid), ⟨buffer, pos, 0⟩) := by
  have hunder : ¬buffer.length < pos := Nat.not_lt.2 hpos
  unfold skipBlob
  rw [bind_run_ok (get_run _), if_neg hunder]
  by_cases hshort : buffer.length - pos < len + 2
  · rw [if_pos hshort]
    exact .inl ⟨by omega, rfl⟩
  · rw [if_neg hshort]
    refine .inr ⟨by omega, ?_⟩
    have hlt : pos + len + 1 < buffer.length := by omega
    rw [List.getElem?_eq_getElem hlt, List.getElem?_eq_getElem (Nat.lt_of_succ_lt hlt)]
    simp only [Option.some.injEq]
    by_cases hcrlf : buffer[pos + len] = cr ∧ buffer[pos + len + 1] = lf
    · rw [if_pos hcrlf, if_neg (by simp [hcrlf])]
      rfl
    · rw [if_neg hcrlf, if_pos (by rwa [← not_and_or])]
      rfl

theorem steady_skipBlob {invalid : RedisError} (hinvalid : invalid ≠ .invalidResponse) (len : Nat) :
    Steady (skipBlob invalid len) := by
  intro buffer pos hpos
  have hlength (more : List UInt8) : pos ≤ (buffer ++ more).length := by
    rw [List.length_append]
    omega
  rcases skipBlob_run hpos invalid len with ⟨_, hrun⟩ | ⟨hlen, hrun⟩
  · exact .inr (.inr ⟨_, hrun⟩)
  · have hmore (more : List UInt8) : skipBlob invalid len ⟨buffer ++ more, pos, 0⟩ =
        if buffer[pos + len]? = some cr ∧ buffer[pos + len + 1]? = some lf then
          (.ok (), ⟨buffer ++ more, pos + len + 2, 0⟩)
        else (.error (.error invalid), ⟨buffer ++ more, pos, 0⟩) := by
      rcases skipBlob_run (hlength more) invalid len with ⟨hshort, _⟩ | ⟨_, hrun'⟩
      · rw [List.length_append] at hshort
        omega
      · rw [hrun', List.getElem?_append_left (by omega), List.getElem?_append_left (by omega)]
    by_cases hcrlf : buffer[pos + len]? = some cr ∧ buffer[pos + len + 1]? = some lf
    · refine .inl ⟨(), pos + len + 2, by omega, hlen, fun more => ?_⟩
      rw [hmore, if_pos hcrlf]
    · refine .inr (.inl ⟨invalid, hinvalid, fun more => ?_⟩)
      rw [hmore, if_neg hcrlf]
      exact ⟨_, rfl⟩

theorem Steady.ite {α : Type} {c : Prop} [Decidable c] {x y : Read α} (hx : c → Steady x) (hy : ¬c → Steady y) :
    Steady (if c then x else y) := by
  split
  · exact hx ‹_›
  · exact hy ‹_›

theorem steady_usize {n : Int} (h : ¬n < 0) : Steady (usize n) := by
  rw [usize_eq h]
  exact steady_pure _

/-- The end of a text and its line break -/
theorem steady_blob {invalid : RedisError} (hinvalid : invalid ≠ .invalidResponse) {len : Int} (hlen : ¬len < 0) :
    Steady (do skipBlob invalid (← usize len); return none : Read (Option Nat)) :=
  (steady_usize hlen).bind fun _ => (steady_skipBlob hinvalid _).bind fun _ => steady_pure _

theorem steady_scanType (depth : Nat) (type : RESPType) : Steady (scanType depth type) := by
  cases type with
  | simpleString => exact steady_readUntilCrlf.bind fun _ => steady_pure _
  | error => exact steady_readUntilCrlf.bind fun _ => steady_pure _
  | integer => exact steady_readUntilCrlf.bind fun _ => steady_pure _
  | null => exact steady_readUntilCrlf.bind fun _ => steady_pure _
  | double => exact steady_readUntilCrlf.bind fun _ => steady_pure _
  | boolean => exact steady_readUntilCrlf.bind fun _ => steady_pure _
  | bigNumber => exact steady_readUntilCrlf.bind fun _ => steady_pure _
  | bulkString =>
    exact steady_readInteger.bind fun len => .ite (fun _ => steady_pure _) fun hlen =>
      .ite (fun _ => steady_fail _) fun _ => steady_blob (by decide) hlen
  | blobError =>
    exact steady_readInteger.bind fun len => .ite (fun _ => steady_fail _) fun hlen =>
      .ite (fun _ => steady_fail _) fun _ => steady_blob (by decide) hlen
  | verbatimString =>
    exact steady_readInteger.bind fun len => .ite (fun _ => steady_fail _) fun hlen =>
      .ite (fun _ => steady_fail _) fun _ => steady_blob (by decide) hlen
  | array =>
    exact (steady_readLen depth).bind fun len => .ite (fun _ => steady_pure _) fun hlen =>
      (steady_usize hlen).bind fun _ => steady_pure _
  | set =>
    exact (steady_readLen depth).bind fun len => .ite (fun _ => steady_fail _) fun hlen =>
      (steady_usize hlen).bind fun _ => steady_pure _
  | push =>
    exact (steady_readLen depth).bind fun len => .ite (fun _ => steady_fail _) fun hlen =>
      (steady_usize (by omega)).bind fun _ => steady_pure _
  | map =>
    exact (steady_readLen depth).bind fun len => .ite (fun _ => steady_fail _) fun hlen =>
      (steady_usize hlen).bind fun _ => steady_pure _
  | «attribute» =>
    exact (steady_readLen depth).bind fun len => .ite (fun _ => steady_fail _) fun hlen =>
      (steady_usize hlen).bind fun _ => steady_pure _

theorem steady_scanOne (depth : Nat) : Steady (scanOne depth) := by
  apply steady_readByte.bind
  intro byte
  split
  · exact steady_fail _
  · exact steady_scanType depth _

/-! ### Skipping a value -/

def skipMany (skip : Read Unit) : Nat → Read Unit
  | 0 => return ()
  | n + 1 => do
    skip
    skipMany skip n

/-- A value and the values it is made of -/
def skipType (skip : Read Unit) : Option Nat → Read Unit
  | none => return ()
  | some children => skipMany skip children

/-- What the scanner is to do, level by level -/
def skipWithDepth : Nat → Nat → Read Unit
  | 0, _ => fail .nestingDepthExceeded
  | n + 1, depth => scanOne depth >>= skipType (skipWithDepth n (depth + 1))

theorem skipMany_add (skip : Read Unit) (m n : Nat) :
    skipMany skip (m + n) = (skipMany skip m >>= fun _ => skipMany skip n) := by
  induction m with
  | zero =>
    rw [Nat.zero_add]
    exact (pure_bind _ _).symm
  | succ m ih =>
    rw [Nat.succ_add]
    show (skip >>= fun _ => skipMany skip (m + n)) = ((skip >>= fun _ => skipMany skip m) >>= fun _ => skipMany skip n)
    rw [ih, bind_assoc]

theorem skipMany_mul (skip : Read Unit) (m n : Nat) : skipMany skip (n * m) = skipMany (skipMany skip m) n := by
  induction n with
  | zero =>
    rw [Nat.zero_mul]
    rfl
  | succ n ih =>
    rw [Nat.succ_mul, Nat.add_comm, skipMany_add, ih]
    rfl

/-! ### The parser goes as far as the scanner -/

section Follows
variable {α β : Type}

/-- What is read is skipped, and what is skipped is all there. -/
def Follows (x : Read α) (y : Read Unit) : Prop :=
  ∀ (buffer : List UInt8) (pos : Nat), pos ≤ buffer.length →
    (∃ a pos', pos' ≤ buffer.length ∧ x ⟨buffer, pos, 0⟩ = (.ok a, ⟨buffer, pos', 0⟩) ∧
      y ⟨buffer, pos, 0⟩ = (.ok (), ⟨buffer, pos', 0⟩)) ∨
    (∃ err r, err ≠ .invalidResponse ∧ x ⟨buffer, pos, 0⟩ = (.error (.error err), r)) ∨
    ∃ r stop r', x ⟨buffer, pos, 0⟩ = (.error (.error .invalidResponse), r) ∧ y ⟨buffer, pos, 0⟩ = (.error stop, r')

theorem follows_pure (a : α) : Follows (pure a) (pure ()) := fun _ pos hpos => .inl ⟨a, pos, hpos, rfl, rfl⟩

theorem follows_fail {err : RedisError} (herr : err ≠ .invalidResponse) (y : Read Unit) :
    Follows (fail err : Read α) y := fun buffer pos _ => .inr (.inl ⟨err, ⟨buffer, pos, 0⟩, herr, rfl⟩)

variable {x : Read α} {y : Read Unit} {f : Int → Read α} {invalid : RedisError}

theorem Follows.bind {f : α → Read β} {y z : Read Unit} (hx : Follows x y) (hf : ∀ a, Follows (f a) z) :
    Follows (x >>= f) (y >>= fun _ => z) := by
  intro buffer pos hpos
  rcases hx buffer pos hpos with ⟨a, pos', hlength, hrun, hskip⟩ | ⟨err, r, herr, hrun⟩ | ⟨r, stop, r', hrun, hskip⟩
  · rw [bind_run_ok hrun, bind_run_ok hskip]
    exact hf a buffer pos' hlength
  · exact .inr (.inl ⟨err, r, herr, bind_run_error hrun⟩)
  · exact .inr (.inr ⟨r, stop, r', bind_run_error hrun, bind_run_error hskip⟩)

/-- Both read the same thing first. -/
theorem follows_steady {γ : Type} {p : Read γ} {f : γ → Read α} {g : γ → Read Unit} (hp : Steady p)
    (hf : ∀ a, Follows (f a) (g a)) : Follows (p >>= f) (p >>= g) := by
  intro buffer pos hpos
  rcases hp buffer pos hpos with ⟨a, pos', _, hlength, hrun⟩ | ⟨err, herr, hrun⟩ | ⟨r, hrun⟩
  · have hnow := hrun []
    rw [List.append_nil] at hnow
    rw [bind_run_ok hnow, bind_run_ok hnow]
    exact hf a buffer pos' hlength
  · obtain ⟨r, hnow⟩ := hrun []
    rw [List.append_nil] at hnow
    exact .inr (.inl ⟨err, r, herr, bind_run_error hnow⟩)
  · exact .inr (.inr ⟨r, _, r, bind_run_error hrun, bind_run_error hrun⟩)

theorem follows_readMany (h : Follows x y) (n : Nat) :
    Follows (readMany x n) (skipMany y n) := by
  induction n with
  | zero => exact follows_pure _
  | succ n ih =>
    apply h.bind
    intro a
    have htail := ih.bind fun as => follows_pure (a :: as)
    rw [bind_pure] at htail
    exact htail

theorem parseInt_le {buf : List UInt8} {radix : Nat} {n : Int} (h : parseInt buf radix = .ok n) :
    n ≤ 9223372036854775807 := by
  have hi64 {m : Int} (hm : toI64 m = .ok n) : n ≤ 9223372036854775807 := by
    unfold toI64 at hm
    split at hm
    · cases hm
      exact (‹_ ∧ _› : _ ∧ _).2
    · cases hm
  cases buf with
  | nil => cases h
  | cons c rest =>
    unfold parseInt at h
    simp only at h
    generalize parseWithSign _ radix = acc at h
    cases acc with
    | error e => cases h
    | ok acc =>
      change (if c = '-'.toUInt8 then if 2 ^ 127 < acc then _ else toI64 (-acc) else toI64 acc) = _ at h
      split at h
      · split at h
        · cases h
        · exact hi64 h
      · exact hi64 h

theorem follows_readInteger {g : Int → Read Unit}
    (hf : ∀ n ≤ 9223372036854775807, Follows (f n) (g n)) : Follows (readInteger >>= f) (readInteger >>= g) := by
  unfold readInteger
  rw [bind_assoc, bind_assoc]
  apply follows_steady steady_readUntilCrlf
  intro str
  cases hparse : parseInt str 10 with
  | ok n =>
    simp only [pure_bind]
    exact hf n (parseInt_le hparse)
  | error e =>
    intro buffer pos _
    exact .inr (.inl ⟨.invalidInteger, _, by decide, bind_run_error (fail_run _ _)⟩)

theorem follows_readLen {depth : Nat} {g : Int → Read Unit}
    (hf : depth < maxNestingDepth → ∀ n ≤ 9223372036854775807, Follows (f n) (g n)) :
    Follows (readLen depth >>= f) (readLen depth >>= g) := by
  unfold readLen
  split
  · intro buffer pos _
    exact .inr (.inl ⟨.nestingDepthExceeded, _, by decide, bind_run_error (fail_run _ _)⟩)
  · exact follows_readInteger (hf (Nat.not_le.1 ‹_›))

theorem follows_readBlob (short : RedisError) (hinvalid : invalid ≠ .invalidResponse)
    (invalid' : RedisError) (len : Nat) : Follows (readBlob short invalid len) (skipBlob invalid' len) := by
  intro buffer pos hpos
  have hskip := skipBlob_run hpos invalid' len
  by_cases hshort : buffer.length < pos + len
  · have hrun : readBlob short invalid len ⟨buffer, pos, 0⟩ = (.error (.error short), ⟨buffer, pos, 0⟩) := by
      show (if buffer.length < pos + len then _ else _ : Read (List UInt8)) _ = _
      rw [if_pos hshort]
      rfl
    rcases hskip with ⟨_, hskip⟩ | ⟨hlen, _⟩
    · by_cases heq : short = .invalidResponse
      · subst heq
        exact .inr (.inr ⟨_, _, _, hrun, hskip⟩)
      · exact .inr (.inl ⟨short, _, heq, hrun⟩)
    · omega
  · have hrun : readBlob short invalid len ⟨buffer, pos, 0⟩ =
        (readUntilCrlf >>= fun crlf =>
          if crlf = [] then pure ((buffer.drop pos).take len) else fail invalid : Read (List UInt8))
          ⟨buffer, pos + len, 0⟩ := by
      show (if buffer.length < pos + len then _ else _ : Read (List UInt8)) _ = _
      rw [if_neg hshort]
      rfl
    have hcrlf : IsCrlf (buffer.drop (pos + len)) 0 ↔
        buffer[pos + len]? = some cr ∧ buffer[pos + len + 1]? = some lf := isCrlf_drop (pos + len) 0
    rw [hrun]
    rcases readUntilCrlf_run (Nat.not_lt.1 hshort) (unbroken_zero _) with ⟨i, hline, hread⟩ | ⟨hnone, hread⟩
    · rw [bind_run_ok hread]
      have hlt := hline.crlf.lt
      rw [List.length_drop] at hlt
      cases i with
      | zero =>
        rcases hskip with ⟨hlen, _⟩ | ⟨hlen, hskip⟩
        · omega
        · rw [if_pos (hcrlf.1 hline.crlf)] at hskip
          refine .inl ⟨(buffer.drop pos).take len, pos + len + 2, hlen, ?_, hskip⟩
          rw [List.take_zero, if_pos rfl]
          rfl
      | succ i =>
        have hne : (buffer.drop (pos + len)).take (i + 1) ≠ [] := by
          rw [← List.length_pos_iff, List.length_take, List.length_drop]
          omega
        rw [if_neg hne]
        exact .inr (.inl ⟨invalid, _, hinvalid, rfl⟩)
    · have hzero : ¬(buffer[pos + len]? = some cr ∧ buffer[pos + len + 1]? = some lf) := fun h =>
        hnone 0 ⟨hcrlf.2 h, fun j hj => absurd hj (Nat.not_lt_zero j), Nat.zero_le _⟩
      have hstop : ∃ stop r, skipBlob invalid' len ⟨buffer, pos, 0⟩ = (.error stop, r) := by
        rcases hskip with ⟨_, hskip⟩ | ⟨_, hskip⟩
        · exact ⟨_, _, hskip⟩
        · rw [if_neg hzero] at hskip
          exact ⟨_, _, hskip⟩
      obtain ⟨stop, r, hstop⟩ := hstop
      rw [bind_run_error hread]
      by_cases hlong : maxLineLen + 1 < (buffer.drop (pos + len)).length
      · rw [if_pos hlong]
        exact .inr (.inl ⟨.lineTooLong, _, by decide, rfl⟩)
      · rw [if_neg hlong]
        exact .inr (.inr ⟨_, stop, r, rfl, hstop⟩)

/-- What is read may be refused. -/
theorem Follows.check {f : α → Read β} (h : Follows x y) (hf : ∀ a, Follows (f a) (pure ())) :
    Follows (x >>= f) y := by
  have hbind := h.bind hf
  rw [bind_pure] at hbind
  exact hbind

theorem Follows.map (h : Follows x y) (f : α → β) :
    Follows (x >>= fun a => pure (f a)) y := h.check fun a => follows_pure (f a)

/-! #### A line -/

/-- Whatever the line is taken for -/
theorem follows_line {f : List UInt8 → Read α} (hf : ∀ str, Follows (f str) (pure ())) (skip : Read Unit) :
    Follows (readUntilCrlf >>= f) ((readUntilCrlf >>= fun _ => pure none) >>= skipType skip) := by
  rw [bind_assoc]
  apply follows_steady steady_readUntilCrlf
  intro str
  rw [pure_bind]
  exact hf str

theorem follows_number (skip : Read Unit) :
    Follows readInteger ((readUntilCrlf >>= fun _ => pure none) >>= skipType skip) := by
  apply follows_line
  intro str
  split
  · exact follows_pure _
  · exact follows_fail (by decide) _

theorem follows_readBoolean (skip : Read Unit) :
    Follows readBoolean ((readUntilCrlf >>= fun _ => pure none) >>= skipType skip) := by
  apply follows_line
  intro str
  split
  · exact follows_pure _
  · split
    · exact follows_pure _
    · exact follows_fail (by decide) _

/-! #### A text -/

theorem follows_text {len : Int} (hlen : ¬len < 0) (short : RedisError)
    (hinvalid : invalid ≠ .invalidResponse) (invalid' : RedisError) (skip : Read Unit) :
    Follows (usize len >>= fun n => readBlob short invalid n)
      ((usize len >>= fun n => skipBlob invalid' n >>= fun _ => pure none) >>= skipType skip) := by
  have hskip (n : Nat) : ((skipBlob invalid' n >>= fun _ => pure none) >>= skipType skip) = skipBlob invalid' n := by
    rw [bind_assoc]
    simp only [pure_bind]
    exact bind_pure _
  rw [bind_assoc, usize_eq hlen, pure_bind, pure_bind, hskip]
  exact follows_readBlob short hinvalid invalid' _

/-- A text whose length is checked first -/
theorem follows_checked (hinvalid : invalid ≠ .invalidResponse) {f : List UInt8 → Read α}
    (hf : ∀ content, Follows (f content) (pure ())) (skip : Read Unit) :
    Follows
      (readInteger >>= fun len =>
        if len < 0 ∨ maxBulkLen < len then fail invalid
        else usize len >>= fun n => readBlob invalid invalid n >>= f)
      ((readInteger >>= fun len =>
        if len < 0 then fail invalid
        else if maxBulkLen < len then fail invalid
        else usize len >>= fun n => skipBlob invalid n >>= fun _ => pure none) >>= skipType skip) := by
  rw [bind_assoc]
  apply follows_readInteger
  intro len _
  by_cases hneg : len < 0
  · rw [if_pos (.inl hneg)]
    exact follows_fail hinvalid _
  by_cases hmax : maxBulkLen < len
  · rw [if_pos (.inr hmax)]
    exact follows_fail hinvalid _
  · rw [if_neg (by omega), if_neg hneg, if_neg hmax, ← bind_assoc]
    exact (follows_text hneg invalid hinvalid invalid skip).check hf

theorem follows_readVerbatimString (skip : Read Unit) :
    Follows readVerbatimString (scanType 0 .verbatimString >>= skipType skip) := by
  refine follows_checked (by decide) (fun content => ?_) skip
  split
  · exact follows_fail (by decide) _
  · exact follows_pure _

/-! #### An aggregate -/

/-- An aggregate that is read and skipped only where its length is not refused -/
theorem follows_aggregate {depth : Nat} (count : Nat → Nat) {refused : Int → Prop} [DecidablePred refused]
    (hrefused : ∀ len, ¬refused len → ¬len < 0) (hinvalid : invalid ≠ .invalidResponse) {skip : Read Unit}
    (hf : depth < maxNestingDepth → ∀ len ≤ 9223372036854775807, ¬refused len →
      Follows (f len) (skipMany skip (count len.toNat))) :
    Follows (readLen depth >>= fun len => if refused len then fail invalid else f len)
      ((readLen depth >>= fun len => if refused len then fail invalid else usize len >>= fun n => pure (some (count n))) >>=
        skipType skip) := by
  rw [bind_assoc]
  apply follows_readLen
  intro hdepth len hlen
  by_cases h : refused len
  · rw [if_pos h]
    exact follows_fail hinvalid _
  · rw [if_neg h, if_neg h, usize_eq (hrefused len h), pure_bind, pure_bind]
    exact hf hdepth len hlen h

end Follows

section Values
variable {F : Type} (doubles : Doubles F)

theorem follows_readDouble (skip : Read Unit) :
    Follows (readDouble doubles) ((readUntilCrlf >>= fun _ => pure none) >>= skipType skip) := by
  apply follows_line
  intro str
  split
  · exact follows_pure _
  split
  · exact follows_pure _
  split
  · exact follows_pure _
  split
  · exact follows_pure _
  · exact follows_fail (by decide) _

theorem follows_readEntry {child : Read (RESPValue F)} {skip : Read Unit} (h : Follows child skip) :
    Follows (readEntry child) (skipMany skip 2) :=
  h.bind fun key => h.bind fun value => follows_pure (key, value)

/-- A value is read as it is skipped, if what it is made of is. -/
theorem follows_readType {depth : Nat} {child : Read (RESPValue F)} {skip : Read Unit}
    (h : depth < maxNestingDepth → Follows child skip) (type : RESPType) :
    Follows (readType doubles depth child type) (scanType depth type >>= skipType skip) := by
  cases type with
  | simpleString => exact follows_line (fun str => follows_pure _) skip
  | error => exact follows_line (fun str => follows_pure _) skip
  | integer => exact (follows_number skip).map _
  | null => exact follows_line (fun str => follows_pure _) skip
  | double => exact (follows_readDouble doubles skip).map _
  | boolean => exact (follows_readBoolean skip).map _
  | bigNumber => exact follows_line (fun str => follows_pure _) skip
  | verbatimString => exact (follows_readVerbatimString skip).map _
  | bulkString =>
    unfold readType scanType
    rw [bind_assoc]
    apply follows_readInteger
    intro len _
    by_cases hneg : len < 0
    · rw [if_pos hneg, if_pos hneg, pure_bind]
      exact follows_pure _
    by_cases hmax : maxBulkLen < len
    · rw [if_neg hneg, if_pos hmax]
      exact follows_fail (by decide) _
    · rw [if_neg hneg, if_neg hmax, if_neg hneg, if_neg hmax, ← bind_assoc]
      exact (follows_text hneg .invalidResponse (by decide : RedisError.invalidBulkString ≠ .invalidResponse)
        .invalidBulkString skip).map _
  | blobError => exact follows_checked (by decide) (fun content => follows_pure _) skip
  | array =>
    unfold readType scanType
    rw [bind_assoc]
    apply follows_readLen
    intro hdepth len _
    by_cases hneg : len < 0
    · rw [if_pos hneg, if_pos hneg, pure_bind]
      exact follows_pure _
    · rw [if_neg hneg, if_neg hneg, usize_eq hneg, pure_bind, pure_bind, pure_bind]
      exact (follows_readMany (h hdepth) _).map _
  | set =>
    refine follows_aggregate id (fun _ h => h) (by decide) fun hdepth len _ hneg => ?_
    rw [usize_eq hneg, pure_bind]
    exact (follows_readMany (h hdepth) _).map _
  | map =>
    refine follows_aggregate (saturatingMul · 2) (fun _ h => h) (by decide) fun hdepth len hlen hneg => ?_
    have hmul : saturatingMul len.toNat 2 = len.toNat * 2 := by
      unfold saturatingMul u64Max
      omega
    rw [usize_eq hneg, pure_bind, hmul, skipMany_mul]
    exact (follows_readMany (follows_readEntry (h hdepth)) _).map _
  | «attribute» =>
    refine follows_aggregate (fun n => saturatingAdd (saturatingMul n 2) 1) (fun _ h => h) (by decide)
      fun hdepth len hlen hneg => ?_
    have hadd : saturatingAdd (saturatingMul len.toNat 2) 1 = len.toNat * 2 + 1 := by
      unfold saturatingAdd saturatingMul u64Max
      omega
    rw [usize_eq hneg, pure_bind, hadd, skipMany_add, skipMany_mul]
    apply (follows_readMany (follows_readEntry (h hdepth)) _).bind
    intro attributes
    exact (h hdepth).bind fun value => follows_pure _
  | push =>
    refine follows_aggregate id (fun len h => by omega) (by decide) fun hdepth len _ hpos => ?_
    have hlen : len.toNat = (len - 1).toNat + 1 := by omega
    rw [usize_eq (by omega), hlen]
    show Follows _ (skip >>= fun _ => skipMany skip (len - 1).toNat)
    apply (h hdepth).bind
    intro value
    cases pushType value with
    | none => exact follows_fail (by decide) _
    | some kind =>
      simp only [pure_bind]
      exact (follows_readMany (h hdepth) _).map _

/-- Induction on the levels. The last one has nothing below it. -/
theorem follows_readValueWithDepth {n depth : Nat} (hn : 0 < n) (hdepth : maxNestingDepth < depth + n) :
    Follows (readValueWithDepth doubles n depth) (skipWithDepth n depth) := by
  induction n generalizing depth with
  | zero => exact absurd hn (Nat.lt_irrefl 0)
  | succ n ih =>
    have hchild : depth < maxNestingDepth →
        Follows (readValueWithDepth doubles n (depth + 1)) (skipWithDepth n (depth + 1)) := by
      intro hlt
      exact ih (by omega) (by omega)
    unfold readValueWithDepth skipWithDepth scanOne
    rw [bind_assoc]
    apply follows_steady steady_readByte
    intro byte
    cases RESPType.fromByte byte with
    | none => exact follows_fail (by decide) _
    | some type => exact follows_readType doubles hchild type

end Values

end Funbun.Valkey
