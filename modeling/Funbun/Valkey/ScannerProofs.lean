import Funbun.Valkey.ProtocolProofs

/-! The scanner finds the end of a reply, however the reply is cut.

`scanLoop_or` goes with the turns of a scan, and says what these come to when there is more. `skips_skipWithDepth` goes
with the levels of a reply: the stack of counts does what the recursion does. -/
namespace Funbun.Valkey
open Library
open Strings (parseInt)

/-! ### One element -/

/-- What wants more leaves the reader where it was. -/
def Still {α : Type} (x : Read α) : Prop :=
  ∀ (buffer : List UInt8) (pos : Nat) (r : ValkeyReader), pos ≤ buffer.length →
    x ⟨buffer, pos, 0⟩ = (.error (.error .invalidResponse), r) → r = ⟨buffer, pos, 0⟩

section Still
variable {α β : Type}

theorem still_pure (a : α) : Still (pure a : Read α) := by
  intro buffer pos r _ h
  cases h

theorem still_fail (err : RedisError) : Still (fail err : Read α) := by
  intro buffer pos r _ h
  exact (congrArg Prod.snd h).symm

theorem Still.ite {c : Prop} [Decidable c] {x y : Read α} (hx : Still x) (hy : ¬c → Still y) :
    Still (if c then x else y) := by
  split
  · exact hx
  · exact hy ‹_›

theorem still_parseInt (str : List UInt8) {f : Int → Read α} (hf : ∀ n, Still (f n)) :
    Still ((match parseInt str 10 with | .ok int => pure int | .error _ => fail .invalidInteger : Read Int) >>= f) := by
  cases parseInt str 10 with
  | ok n => exact hf n
  | error e =>
    intro buffer pos r _ h
    cases h

theorem still_skipBlob (invalid : RedisError) {len : Int} (hlen : ¬len < 0) :
    Still (usize len >>= fun n => skipBlob invalid n >>= fun _ => pure none : Read (Option Nat)) := by
  rw [usize_eq hlen, pure_bind]
  intro buffer pos r hpos h
  rcases skipBlob_run hpos invalid len.toNat with ⟨_, hrun⟩ | ⟨_, hrun⟩
  · rw [bind_run_error hrun] at h
    exact (congrArg Prod.snd h).symm
  · split at hrun
    · rw [bind_run_ok hrun] at h
      cases h
    · rw [bind_run_error hrun] at h
      exact (congrArg Prod.snd h).symm

end Still

/-- An element is refused for its depth, or starts with a line. -/
theorem scanType_or (depth : Nat) (type : RESPType) :
    (∃ err, err ≠ .invalidResponse ∧ ∀ r, scanType depth type r = (.error (.error err), r)) ∨
    ∃ k : List UInt8 → Read (Option Nat), scanType depth type = (readUntilCrlf >>= k) ∧ ∀ str, Still (k str) := by
  have hlen (f : Int → Read (Option Nat)) (hf : ∀ n, Still (f n)) :
      (∃ err, err ≠ .invalidResponse ∧ ∀ r, (readLen depth >>= f) r = (.error (.error err), r)) ∨
      ∃ k : List UInt8 → Read (Option Nat), (readLen depth >>= f) = (readUntilCrlf >>= k) ∧ ∀ str, Still (k str) := by
    unfold readLen
    split
    · exact .inl ⟨.nestingDepthExceeded, by decide, fun r => rfl⟩
    · refine .inr ⟨_, ?_, fun str => still_parseInt str hf⟩
      unfold readInteger
      exact bind_assoc _ _ _
  have htext (f : Int → Read (Option Nat)) (hf : ∀ n, Still (f n)) :
      ∃ k : List UInt8 → Read (Option Nat), (readInteger >>= f) = (readUntilCrlf >>= k) ∧ ∀ str, Still (k str) := by
    refine ⟨_, ?_, fun str => still_parseInt str hf⟩
    unfold readInteger
    exact bind_assoc _ _ _
  cases type with
  | simpleString => exact .inr ⟨_, rfl, fun _ => still_pure _⟩
  | error => exact .inr ⟨_, rfl, fun _ => still_pure _⟩
  | integer => exact .inr ⟨_, rfl, fun _ => still_pure _⟩
  | null => exact .inr ⟨_, rfl, fun _ => still_pure _⟩
  | double => exact .inr ⟨_, rfl, fun _ => still_pure _⟩
  | boolean => exact .inr ⟨_, rfl, fun _ => still_pure _⟩
  | bigNumber => exact .inr ⟨_, rfl, fun _ => still_pure _⟩
  | bulkString =>
    exact .inr (htext _ fun len => (still_pure _).ite fun hneg => (still_fail _).ite fun _ => still_skipBlob _ hneg)
  | blobError =>
    exact .inr (htext _ fun len => (still_fail _).ite fun hneg => (still_fail _).ite fun _ => still_skipBlob _ hneg)
  | verbatimString =>
    exact .inr (htext _ fun len => (still_fail _).ite fun hneg => (still_fail _).ite fun _ => still_skipBlob _ hneg)
  | array => exact hlen _ fun len => (still_pure _).ite fun hneg => by rw [usize_eq hneg]; exact still_pure _
  | set => exact hlen _ fun len => (still_fail _).ite fun hneg => by rw [usize_eq hneg]; exact still_pure _
  | push => exact hlen _ fun len => (still_fail _).ite fun hneg => by rw [usize_eq (by omega)]; exact still_pure _
  | map => exact hlen _ fun len => (still_fail _).ite fun hneg => by rw [usize_eq hneg]; exact still_pure _
  | «attribute» => exact hlen _ fun len => (still_fail _).ite fun hneg => by rw [usize_eq hneg]; exact still_pure _

variable {buffer bytes : List UInt8} {pos skip depth : Nat}

/-- A byte of which there is a type: what the element is read by -/
theorem scanOne_type {byte : UInt8} {type : RESPType} (hbyte : buffer[pos]? = some byte)
    (htype : RESPType.fromByte byte = some type) (depth skip : Nat) :
    scanOne depth ⟨buffer, pos, skip⟩ = scanType depth type ⟨buffer, pos + 1, skip⟩ := by
  have hread : readByte ⟨buffer, pos, skip⟩ = (.ok byte, ⟨buffer, pos + 1, skip⟩) := by
    rw [readByte_run, hbyte, Option.elim_some]
  unfold scanOne
  rw [bind_run_ok hread]
  simp only [htype]

theorem scanOne_none (hbyte : buffer[pos]? = none) (depth skip : Nat) :
    scanOne depth ⟨buffer, pos, skip⟩ = (.error (.error .invalidResponse), ⟨buffer, pos, skip⟩) := by
  apply bind_run_error
  rw [readByte_run, hbyte, Option.elim_none]

theorem scanOne_badType {byte : UInt8} (hbyte : buffer[pos]? = some byte)
    (htype : RESPType.fromByte byte = none) (depth skip : Nat) :
    scanOne depth ⟨buffer, pos, skip⟩ = (.error (.error .invalidResponseType), ⟨buffer, pos + 1, skip⟩) := by
  have hread : readByte ⟨buffer, pos, skip⟩ = (.ok byte, ⟨buffer, pos + 1, skip⟩) := by
    rw [readByte_run, hbyte, Option.elim_some]
  unfold scanOne
  rw [bind_run_ok hread]
  simp only [htype]
  rfl

/-- No line ends before an index, and that will not change. -/
def Searched (bytes : List UInt8) (skip : Nat) : Prop := ∀ j < skip, j + 1 < bytes.length ∧ ¬IsCrlf bytes j

theorem Searched.unbroken (h : Searched bytes skip) : Unbroken bytes skip :=
  fun j hj => (h j hj).2

theorem Searched.append (h : Searched bytes skip) (more : List UInt8) :
    Searched (bytes ++ more) skip := by
  intro j hj
  obtain ⟨hlt, hcrlf⟩ := h j hj
  refine ⟨by rw [List.length_append]; omega, fun hmore => hcrlf ((isCrlf_append hlt).1 hmore)⟩

/-- Without a line, and without too many bytes, there is no line break at all. -/
theorem searched_of_not_line (h : ∀ i, ¬Line bytes i) (hshort : ¬maxLineLen + 1 < bytes.length) :
    Searched bytes (bytes.length - 1) := by
  have hnone : ∀ n, Unbroken bytes n := by
    intro n
    induction n with
    | zero => exact unbroken_zero bytes
    | succ n ih =>
      intro j hj hcrlf
      rcases Nat.lt_succ_iff_lt_or_eq.1 hj with hlt | rfl
      · exact ih j hlt hcrlf
      · have hlt := hcrlf.lt
        exact h j ⟨hcrlf, ih, by omega⟩
  exact fun j hj => ⟨by omega, hnone (j + 1) j (Nat.lt_succ_self j)⟩

/-- An element that is not all there: it has no line, or what its line announces is missing. -/
theorem scanOne_wait (hskip : Searched (buffer.drop (pos + 1)) skip) {r₀ : ValkeyReader}
    (h : scanOne depth ⟨buffer, pos, 0⟩ = (.error (.error .invalidResponse), r₀)) :
    ∃ r, scanOne depth ⟨buffer, pos, skip⟩ = (.error (.error .invalidResponse), r) ∧ r.buffer = buffer ∧
      (r.pos = pos + 1 → pos + 1 ≤ buffer.length ∧
        Searched (buffer.drop (pos + 1)) (buffer.length - (pos + 1) - 1)) := by
  cases hbyte : buffer[pos]? with
  | none =>
    refine ⟨_, scanOne_none hbyte depth skip, rfl, fun hr => ?_⟩
    change pos = pos + 1 at hr
    omega
  | some byte =>
    have hlt : pos < buffer.length := (List.getElem?_eq_some_iff.1 hbyte).1
    cases htype : RESPType.fromByte byte with
    | none =>
      rw [scanOne_badType hbyte htype] at h
      cases h
    | some type =>
      rw [scanOne_type hbyte htype] at h ⊢
      rcases scanType_or depth type with ⟨err, herr, hrun⟩ | ⟨k, hline, hstill⟩
      · rw [hrun] at h
        exact absurd (Stop.error.inj (Except.error.inj (congrArg Prod.fst h))) herr
      · rw [hline] at h ⊢
        have hread : readUntilCrlf ⟨buffer, pos + 1, skip⟩ = readUntilCrlf ⟨buffer, pos + 1, 0⟩ :=
          readUntilCrlf_skip hlt hskip.unbroken
        rcases readUntilCrlf_run hlt (unbroken_zero _) with ⟨i, hi, hrun⟩ | ⟨hnone, hrun⟩
        · rw [bind_run_ok hrun] at h
          rw [bind_run_ok (hread.trans hrun)]
          have hend := hi.crlf.lt
          rw [List.length_drop] at hend
          have hr := hstill _ buffer (pos + 1 + i + 2) r₀ (by omega) h
          rw [hr] at h
          refine ⟨_, h, rfl, fun heq => ?_⟩
          change pos + 1 + i + 2 = pos + 1 at heq
          omega
        · have hrun' := hread.trans hrun
          rw [bind_run_error hrun] at h
          rw [bind_run_error hrun']
          split at h
          · cases h
          · rename_i hshort
            rw [if_neg hshort]
            refine ⟨_, rfl, rfl, fun _ => ⟨hlt, ?_⟩⟩
            have hsearched := searched_of_not_line hnone hshort
            rw [List.length_drop] at hsearched
            exact hsearched

/-- The start of the search does not matter to an element that is complete or refused. -/
theorem scanOne_skip (hskip : Searched (buffer.drop (pos + 1)) skip) (depth : Nat) :
    (scanOne depth ⟨buffer, pos, skip⟩).1 = (scanOne depth ⟨buffer, pos, 0⟩).1 ∧
      ∀ children, (scanOne depth ⟨buffer, pos, 0⟩).1 = .ok children →
        scanOne depth ⟨buffer, pos, skip⟩ = scanOne depth ⟨buffer, pos, 0⟩ := by
  cases hbyte : buffer[pos]? with
  | none =>
    rw [scanOne_none hbyte, scanOne_none hbyte]
    exact ⟨rfl, fun children h => nomatch h⟩
  | some byte =>
    have hlt : pos < buffer.length := (List.getElem?_eq_some_iff.1 hbyte).1
    cases htype : RESPType.fromByte byte with
    | none =>
      rw [scanOne_badType hbyte htype, scanOne_badType hbyte htype]
      exact ⟨rfl, fun children h => nomatch h⟩
    | some type =>
      rw [scanOne_type hbyte htype, scanOne_type hbyte htype]
      rcases scanType_or depth type with ⟨err, herr, hrun⟩ | ⟨k, hline, _⟩
      · rw [hrun, hrun]
        exact ⟨rfl, fun children h => nomatch h⟩
      · rw [hline]
        have hread : readUntilCrlf ⟨buffer, pos + 1, skip⟩ = readUntilCrlf ⟨buffer, pos + 1, 0⟩ :=
          readUntilCrlf_skip hlt hskip.unbroken
        have heq : (readUntilCrlf >>= k) ⟨buffer, pos + 1, skip⟩ = (readUntilCrlf >>= k) ⟨buffer, pos + 1, 0⟩ := by
          rcases readUntilCrlf_run hlt (unbroken_zero _) with ⟨i, _, hrun⟩ | ⟨_, hrun⟩
          · rw [bind_run_ok hrun, bind_run_ok (hread.trans hrun)]
          · rw [bind_run_error hrun, bind_run_error (hread.trans hrun)]
        exact ⟨congrArg Prod.fst heq, fun _ _ => heq⟩

theorem scanOne_lt {pos pos' skip depth : Nat} {children : Option Nat}
    (h : scanOne depth ⟨buffer, pos, 0⟩ = (.ok children, ⟨buffer, pos', skip⟩)) : pos < pos' := by
  cases hbyte : buffer[pos]? with
  | none =>
    rw [scanOne_none hbyte] at h
    cases h
  | some byte =>
    have hlt : pos < buffer.length := (List.getElem?_eq_some_iff.1 hbyte).1
    cases htype : RESPType.fromByte byte with
    | none =>
      rw [scanOne_badType hbyte htype] at h
      cases h
    | some type =>
      rw [scanOne_type hbyte htype] at h
      rcases steady_scanType depth type buffer (pos + 1) hlt with ⟨a, pos'', hle, _, hrun⟩ | ⟨err, _, hrun⟩ | ⟨r, hrun⟩
      · have hnow := hrun []
        rw [List.append_nil, h] at hnow
        have := congrArg (fun x => x.2.pos) hnow
        change pos' = pos'' at this
        omega
      · obtain ⟨r, hnow⟩ := hrun []
        rw [List.append_nil, h] at hnow
        cases hnow
      · rw [h] at hrun
        cases hrun

def Yields {α : Type} (x : Read α) (P : α → Prop) : Prop := ∀ r a r', x r = (.ok a, r') → P a

section Yields
variable {α β : Type} {P : β → Prop}

theorem yields_pure {b : β} (h : P b) : Yields (pure b) P := by
  intro r a r' hrun
  cases hrun
  exact h

theorem yields_fail (err : RedisError) : Yields (fail err) P := by
  intro r a r' hrun
  cases hrun

theorem yields_bind (x : Read α) {f : α → Read β} (h : ∀ a, Yields (f a) P) : Yields (x >>= f) P := by
  intro r b r' hrun
  cases hx : x r with
  | mk result r₁ =>
    cases result with
    | error e =>
      rw [bind_run_error hx] at hrun
      cases hrun
    | ok a =>
      rw [bind_run_ok hx] at hrun
      exact h a r₁ b r' hrun

theorem Yields.ite {c : Prop} [Decidable c] {x y : Read β} (hx : Yields x P) (hy : Yields y P) :
    Yields (if c then x else y) P := by
  split
  · exact hx
  · exact hy

end Yields

/-- There are no aggregates below the last level. -/
theorem scanOne_depth (h : maxNestingDepth ≤ depth) : Yields (scanOne depth) (· = none) := by
  have hlen (f : Int → Read (Option Nat)) : Yields (readLen depth >>= f) (· = none) := by
    unfold readLen
    rw [if_pos h]
    intro r a r' hrun
    cases hrun
  have hnone : Yields (pure none : Read (Option Nat)) (· = none) := yields_pure rfl
  have hline : Yields (readUntilCrlf >>= fun _ => pure none : Read (Option Nat)) (· = none) :=
    yields_bind _ fun _ => hnone
  have htext (invalid : RedisError) (len : Int) :
      Yields (usize len >>= fun n => skipBlob invalid n >>= fun _ => pure none : Read (Option Nat)) (· = none) :=
    yields_bind _ fun _ => yields_bind _ fun _ => hnone
  apply yields_bind
  intro byte
  cases RESPType.fromByte byte with
  | none => exact yields_fail _
  | some type =>
    cases type with
    | simpleString => exact hline
    | error => exact hline
    | integer => exact hline
    | null => exact hline
    | double => exact hline
    | boolean => exact hline
    | bigNumber => exact hline
    | bulkString => exact yields_bind _ fun len => hnone.ite ((yields_fail _).ite (htext _ len))
    | blobError => exact yields_bind _ fun len => (yields_fail _).ite ((yields_fail _).ite (htext _ len))
    | verbatimString => exact yields_bind _ fun len => (yields_fail _).ite ((yields_fail _).ite (htext _ len))
    | array => exact hlen _
    | set => exact hlen _
    | push => exact hlen _
    | map => exact hlen _
    | «attribute» => exact hlen _

/-! ### The turns of a scan -/

namespace ReplyScanner

/-- Every count on the stack is of values that are still to come. -/
def Waiting (stack : List Nat) : Prop := ∀ remaining ∈ stack, 0 < remaining

variable {stack : List Nat} {s : ReplyScanner} {buffer : List UInt8} {r : ValkeyReader} {n : Nat}

theorem unwind_ok (h : Waiting stack) : ∃ stack', unwind stack = .ok stack' ∧ Waiting stack' := by
  induction stack with
  | nil => exact ⟨[], rfl, h⟩
  | cons remaining stack ih =>
    have hpos := h remaining List.mem_cons_self
    have hrest : Waiting stack := fun c hc => h c (List.mem_cons_of_mem _ hc)
    unfold unwind
    rw [if_neg (Nat.ne_of_gt hpos)]
    by_cases hmore : 0 < remaining - 1
    · rw [if_pos hmore]
      refine ⟨_, rfl, fun c hc => ?_⟩
      rcases List.mem_cons.1 hc with rfl | hc
      · exact hmore
      · exact hrest c hc
    · rw [if_neg hmore]
      exact ih hrest

/-- The loop behind an element that has no values of its own -/
def finishLoop (buffer : List UInt8) (n : Nat) (s : ReplyScanner) (pos : Nat) : Except Stop ScanResult × ReplyScanner :=
  match unwind s.stack with
  | .error stop => (.error stop, s)
  | .ok [] => (.ok .complete, ⟨pos, [], 0⟩)
  | .ok (remaining :: stack) => scanLoop buffer n ⟨pos, remaining :: stack, 0⟩

theorem finishLoop_eq (h : unwind s.stack = .ok stack) (buffer : List UInt8) (n pos : Nat) : finishLoop buffer n s pos =
      if stack = [] then (.ok .complete, ⟨pos, [], 0⟩) else scanLoop buffer n ⟨pos, stack, 0⟩ := by
  unfold finishLoop
  rw [h]
  cases stack <;> rfl

theorem scanLoop_aggregate {n children : Nat}
    (h : scanOne s.stack.length ⟨buffer, s.pos, s.crlfSkip⟩ = (.ok (some (children + 1)), r)) :
    scanLoop buffer (n + 1) s = scanLoop buffer n ⟨r.pos, (children + 1) :: s.stack, 0⟩ := by
  rw [scanLoop, h]

theorem scanLoop_value {children : Option Nat}
    (h : scanOne s.stack.length ⟨buffer, s.pos, s.crlfSkip⟩ = (.ok children, r)) (hchildren : children.getD 0 = 0) :
    scanLoop buffer (n + 1) s = finishLoop buffer n s r.pos := by
  rw [scanLoop, h]
  unfold finishLoop
  cases children with
  | none => cases unwind s.stack with
    | error stop => rfl
    | ok stack => cases stack <;> rfl
  | some children =>
    cases children with
    | zero => cases unwind s.stack with
      | error stop => rfl
      | ok stack => cases stack <;> rfl
    | succ children => cases hchildren

theorem scanLoop_error {err : RedisError}
    (h : scanOne s.stack.length ⟨buffer, s.pos, s.crlfSkip⟩ = (.error (.error err), r)) (herr : err ≠ .invalidResponse) :
    scanLoop buffer (n + 1) s = (.error (.error err), s) := by
  rw [scanLoop, h]
  cases err <;> first | rfl | exact absurd rfl herr

theorem scanLoop_wait {n skip : Nat}
    (h : scanOne s.stack.length ⟨buffer, s.pos, s.crlfSkip⟩ = (.error (.error .invalidResponse), r))
    (hskip : s.skipAt r = .ok skip) :
    scanLoop buffer (n + 1) s = (.ok .needMoreData, {s with crlfSkip := skip}) := by
  rw [scanLoop, h]
  simp only [hskip]

/-- Between two scans of a growing buffer -/
structure Sound (buffer : List UInt8) (s : ReplyScanner) : Prop where
  pos : s.pos ≤ buffer.length
  waiting : Waiting s.stack
  searched : Searched (buffer.drop (s.pos + 1)) s.crlfSkip

theorem Sound.append (h : Sound buffer s) (more : List UInt8) :
    Sound (buffer ++ more) s where
  pos := by
    have := h.pos
    rw [List.length_append]
    omega
  waiting := h.waiting
  searched := by
    by_cases hpos : s.pos + 1 ≤ buffer.length
    · rw [List.drop_append_of_le_length hpos]
      exact h.searched.append more
    · intro j hj
      have hlt := (h.searched j hj).1
      rw [List.length_drop] at hlt
      omega

theorem sound_start {pos : Nat} (hpos : pos ≤ buffer.length) (hstack : Waiting stack) : Sound buffer ⟨pos, stack, 0⟩ where
  pos := hpos
  waiting := hstack
  searched := fun j hj => absurd hj (Nat.not_lt_zero j)

/-- Without what is not to be searched again -/
def restart (s : ReplyScanner) : ReplyScanner := {s with crlfSkip := 0}

/-- What a scan comes to, and what it comes to when there is more: it is complete, it goes on from where it is, or it fails
in the same way. Turns there are enough of. -/
def Outcome (buffer : List UInt8) (s : ReplyScanner) (result : Except Stop ScanResult × ReplyScanner) : Prop :=
  (∃ pos', pos' ≤ buffer.length ∧ result = (.ok .complete, ⟨pos', [], 0⟩) ∧
    ∀ more m, (buffer ++ more).length < s.pos + m →
      scanLoop (buffer ++ more) m s.restart = (.ok .complete, ⟨pos', [], 0⟩)) ∨
  (∃ s', result = (.ok .needMoreData, s') ∧ Sound buffer s' ∧
    (∀ m, buffer.length < s.pos + m → (scanLoop buffer m s.restart).1 = .ok .needMoreData) ∧
    ∀ more m, (buffer ++ more).length < s.pos + m → ∃ m', (buffer ++ more).length < s'.pos + m' ∧
      scanLoop (buffer ++ more) m s.restart = scanLoop (buffer ++ more) m' s'.restart) ∨
  ∃ err s', result = (.error (.error err), s') ∧ Sound buffer s' ∧
    ∀ more m, (buffer ++ more).length < s.pos + m →
      (scanLoop (buffer ++ more) m s.restart).1 = .error (.error err) ∧
      ∃ m', (buffer ++ more).length < s'.pos + m' ∧
        scanLoop (buffer ++ more) m s.restart = scanLoop (buffer ++ more) m' s'.restart

/-- A turn that goes on from another state -/
theorem Outcome.turn {s s₁ : ReplyScanner} {result : Except Stop ScanResult × ReplyScanner} (h : Outcome buffer s₁ result)
    (hturn : ∀ more m, (buffer ++ more).length < s.pos + m → ∃ k, (buffer ++ more).length < s₁.pos + k ∧
      scanLoop (buffer ++ more) m s.restart = scanLoop (buffer ++ more) k s₁.restart) : Outcome buffer s result := by
  rcases h with ⟨pos', hpos', hresult, hmore⟩ | ⟨s', hresult, hsound, hnow, hmore⟩ | ⟨err, s', hresult, hsound, hmore⟩
  · refine .inl ⟨pos', hpos', hresult, fun more m hm => ?_⟩
    obtain ⟨k, hk, heq⟩ := hturn more m hm
    rw [heq]
    exact hmore more k hk
  · refine .inr (.inl ⟨s', hresult, hsound, fun m hm => ?_, fun more m hm => ?_⟩)
    · obtain ⟨k, hk, heq⟩ := hturn [] m (by rw [List.append_nil]; exact hm)
      rw [List.append_nil] at hk heq
      rw [heq]
      exact hnow k hk
    · obtain ⟨k, hk, heq⟩ := hturn more m hm
      rw [heq]
      exact hmore more k hk
  · refine .inr (.inr ⟨err, s', hresult, hsound, fun more m hm => ?_⟩)
    obtain ⟨k, hk, heq⟩ := hturn more m hm
    rw [heq]
    exact hmore more k hk

theorem skipAt_ok (hbuffer : r.buffer = buffer) (hr : r.pos = s.pos + 1 → s.pos + 1 ≤ buffer.length ∧
      Searched (buffer.drop (s.pos + 1)) (buffer.length - (s.pos + 1) - 1)) :
    ∃ skip, s.skipAt r = .ok skip ∧ Searched (buffer.drop (s.pos + 1)) skip := by
  unfold skipAt
  by_cases hpos : r.pos = s.pos + 1
  · obtain ⟨hle, hsearched⟩ := hr hpos
    rw [if_pos hpos, hbuffer, hpos, if_neg (Nat.not_lt.2 hle)]
    exact ⟨_, rfl, hsearched⟩
  · rw [if_neg hpos]
    exact ⟨0, rfl, fun j hj => absurd hj (Nat.not_lt_zero j)⟩

/-- Induction on the turns -/
theorem scanLoop_or (h : Sound buffer s) (hn : buffer.length < s.pos + n) : Outcome buffer s (scanLoop buffer n s) := by
  induction n generalizing s with
  | zero =>
    have := h.pos
    omega
  | succ n ih =>
    have hturns : ∀ more m, (buffer ++ more).length < s.pos + m → ∃ k, m = k + 1 := by
      intro more m hm
      have := h.pos
      rw [List.length_append] at hm
      exact Nat.exists_eq_succ_of_ne_zero (by omega)
    rcases steady_scanOne s.stack.length buffer s.pos h.pos with
      ⟨children, pos', _, hlength, hrun⟩ | ⟨err, herr, hrun⟩ | ⟨r, hrun⟩
    · have hnow := hrun []
      rw [List.append_nil] at hnow
      have hlt := scanOne_lt hnow
      have hskip := ((scanOne_skip h.searched _).2 children (congrArg Prod.fst hnow)).trans hnow
      by_cases hchildren : children.getD 0 = 0
      · obtain ⟨stack, hunwind, hwaiting⟩ := unwind_ok h.waiting
        have hunwind' : unwind s.restart.stack = .ok stack := hunwind
        rw [scanLoop_value hskip hchildren, finishLoop_eq hunwind]
        by_cases hstack : stack = []
        · rw [if_pos hstack]
          refine .inl ⟨pos', hlength, rfl, fun more m hm => ?_⟩
          obtain ⟨k, rfl⟩ := hturns more m hm
          have hmore : scanOne s.restart.stack.length ⟨buffer ++ more, s.restart.pos, s.restart.crlfSkip⟩ = _ := hrun more
          rw [scanLoop_value hmore hchildren, finishLoop_eq hunwind', if_pos hstack]
        · rw [if_neg hstack]
          apply (ih (sound_start hlength hwaiting) (by show _ < pos' + n; omega)).turn
          intro more m hm
          obtain ⟨k, rfl⟩ := hturns more m hm
          refine ⟨k, by show _ < pos' + k; omega, ?_⟩
          have hmore : scanOne s.restart.stack.length ⟨buffer ++ more, s.restart.pos, s.restart.crlfSkip⟩ = _ := hrun more
          rw [scanLoop_value hmore hchildren, finishLoop_eq hunwind', if_neg hstack]
          rfl
      · obtain ⟨c, rfl⟩ : ∃ c, children = some (c + 1) := by
          cases children with
          | none => exact absurd rfl hchildren
          | some c =>
            cases c with
            | zero => exact absurd rfl hchildren
            | succ c => exact ⟨c, rfl⟩
        have hwaiting : Waiting ((c + 1) :: s.stack) := List.forall_mem_cons.2 ⟨Nat.succ_pos c, h.waiting⟩
        rw [scanLoop_aggregate hskip]
        apply (ih (sound_start hlength hwaiting) (by show _ < pos' + n; omega)).turn
        intro more m hm
        obtain ⟨k, rfl⟩ := hturns more m hm
        have hmore : scanOne s.restart.stack.length ⟨buffer ++ more, s.restart.pos, s.restart.crlfSkip⟩ =
            (.ok (some (c + 1)), ⟨buffer ++ more, pos', 0⟩) := hrun more
        exact ⟨k, by show _ < pos' + k; omega, scanLoop_aggregate hmore⟩
    · obtain ⟨r, hnow⟩ := hrun []
      rw [List.append_nil] at hnow
      have hskip := (scanOne_skip h.searched s.stack.length).1
      rw [hnow] at hskip
      have herror : scanOne s.stack.length ⟨buffer, s.pos, s.crlfSkip⟩ =
          (.error (.error err), (scanOne s.stack.length ⟨buffer, s.pos, s.crlfSkip⟩).2) := Prod.ext hskip rfl
      rw [scanLoop_error herror herr]
      refine .inr (.inr ⟨err, s, rfl, h, fun more m hm => ?_⟩)
      obtain ⟨k, rfl⟩ := hturns more m hm
      obtain ⟨r', hmore⟩ := hrun more
      change scanOne s.restart.stack.length ⟨buffer ++ more, s.restart.pos, s.restart.crlfSkip⟩ = _ at hmore
      refine ⟨?_, k + 1, hm, rfl⟩
      rw [scanLoop_error hmore herr]
    · obtain ⟨r', hskip, hbuffer, hr⟩ := scanOne_wait h.searched hrun
      obtain ⟨skip, hskipAt, hsearched⟩ := skipAt_ok hbuffer hr
      rw [scanLoop_wait hskip hskipAt]
      refine .inr (.inl ⟨_, rfl, ⟨h.pos, h.waiting, hsearched⟩, fun m hm => ?_, fun more m hm => ⟨m, hm, rfl⟩⟩)
      obtain ⟨k, rfl⟩ := hturns [] m (by rw [List.append_nil]; exact hm)
      have hsearched₀ : Searched (buffer.drop (s.pos + 1)) 0 := fun j hj => absurd hj (Nat.not_lt_zero j)
      obtain ⟨r₀, hskip₀, hbuffer₀, hr₀⟩ := scanOne_wait hsearched₀ hrun
      change scanOne s.restart.stack.length ⟨buffer, s.restart.pos, s.restart.crlfSkip⟩ = _ at hskip₀
      obtain ⟨skip₀, hskipAt₀, _⟩ : ∃ skip, s.restart.skipAt r₀ = .ok skip ∧ Searched _ skip := skipAt_ok hbuffer₀ hr₀
      rw [scanLoop_wait hskip₀ hskipAt₀]

end ReplyScanner

end Funbun.Valkey
