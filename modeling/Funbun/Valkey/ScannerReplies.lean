import Funbun.Valkey.ScannerProofs

/-! One scanner for a reply that comes in pieces.

It says at every piece what a new one would say, until it has found the end, and then the parser is not left without
bytes. -/
namespace Funbun.Valkey
open Library ReplyScanner
open Strings (ascii)

/-! ### The levels of a reply -/

/-- What the scanner makes of an error -/
def stopped (err : RedisError) : Except Stop ScanResult :=
  if err = .invalidResponse then .ok .needMoreData else .error (.error err)

/-- The loop does what the recursion does: it gets behind a value, and takes it off the stack. -/
def Skips (skip : Read Unit) (depth : Nat) : Prop :=
  ∀ (buffer : List UInt8) (pos : Nat) (stack : List Nat), pos ≤ buffer.length → stack.length = depth → Waiting stack →
    (∃ pos', pos' ≤ buffer.length ∧ skip ⟨buffer, pos, 0⟩ = (.ok (), ⟨buffer, pos', 0⟩) ∧
      ∀ stack', unwind stack = .ok stack' → ∀ m, buffer.length < pos + m → ∃ m', buffer.length < pos' + m' ∧
        scanLoop buffer m ⟨pos, stack, 0⟩ =
          if stack' = [] then (.ok .complete, ⟨pos', [], 0⟩) else scanLoop buffer m' ⟨pos', stack', 0⟩) ∨
    ∃ err r, skip ⟨buffer, pos, 0⟩ = (.error (.error err), r) ∧
      ∀ m, buffer.length < pos + m → (scanLoop buffer m ⟨pos, stack, 0⟩).1 = stopped err

variable {buffer : List UInt8} {s : ReplyScanner}

/-- Induction on the values of an aggregate -/
theorem skips_skipMany {skip : Read Unit} {depth : Nat} (h : Skips skip (depth + 1)) (c : Nat)
    {pos : Nat} {stack : List Nat} (hpos : pos ≤ buffer.length) (hdepth : stack.length = depth) (hstack : Waiting stack) :
    (∃ pos', pos' ≤ buffer.length ∧ skipMany skip (c + 1) ⟨buffer, pos, 0⟩ = (.ok (), ⟨buffer, pos', 0⟩) ∧
      ∀ stack', unwind stack = .ok stack' → ∀ m, buffer.length < pos + m → ∃ m', buffer.length < pos' + m' ∧
        scanLoop buffer m ⟨pos, (c + 1) :: stack, 0⟩ =
          if stack' = [] then (.ok .complete, ⟨pos', [], 0⟩) else scanLoop buffer m' ⟨pos', stack', 0⟩) ∨
    ∃ err r, skipMany skip (c + 1) ⟨buffer, pos, 0⟩ = (.error (.error err), r) ∧
      ∀ m, buffer.length < pos + m → (scanLoop buffer m ⟨pos, (c + 1) :: stack, 0⟩).1 = stopped err := by
  induction c generalizing pos with
  | zero =>
    have hwaiting : Waiting (1 :: stack) := List.forall_mem_cons.2 ⟨Nat.one_pos, hstack⟩
    have hunwind : unwind (1 :: stack) = unwind stack := rfl
    rcases h buffer pos (1 :: stack) hpos (congrArg (· + 1) hdepth) hwaiting with
      ⟨pos', hpos', hskip, hloop⟩ | ⟨err, r, hskip, hloop⟩
    · refine .inl ⟨pos', hpos', ?_, fun stack' hstack' => hloop stack' (hunwind.trans hstack')⟩
      show (skip >>= fun _ => pure ()) ⟨buffer, pos, 0⟩ = _
      rw [bind_run_ok hskip]
      rfl
    · exact .inr ⟨err, r, bind_run_error hskip, hloop⟩
  | succ c ih =>
    have hwaiting : Waiting ((c + 1 + 1) :: stack) := List.forall_mem_cons.2 ⟨Nat.succ_pos _, hstack⟩
    have hunwind : unwind ((c + 1 + 1) :: stack) = .ok ((c + 1) :: stack) := rfl
    have hrun (a : Unit) (r : ValkeyReader) (hskip : skip ⟨buffer, pos, 0⟩ = (.ok a, r)) :
        skipMany skip (c + 1 + 1) ⟨buffer, pos, 0⟩ = skipMany skip (c + 1) r := bind_run_ok hskip
    rcases h buffer pos _ hpos (congrArg (· + 1) hdepth) hwaiting with
      ⟨pos₁, hpos₁, hskip, hloop⟩ | ⟨err, r, hskip, hloop⟩
    · rw [hrun _ _ hskip]
      rcases ih hpos₁ with ⟨pos', hpos', hskip', hloop'⟩ | ⟨err, r, hskip', hloop'⟩
      · refine .inl ⟨pos', hpos', hskip', fun stack' hstack' m hm => ?_⟩
        obtain ⟨m₁, hm₁, heq⟩ := hloop _ hunwind m hm
        obtain ⟨m', hm', heq'⟩ := hloop' stack' hstack' m₁ hm₁
        exact ⟨m', hm', heq.trans heq'⟩
      · refine .inr ⟨err, r, hskip', fun m hm => ?_⟩
        obtain ⟨m₁, hm₁, heq⟩ := hloop _ hunwind m hm
        rw [heq]
        exact hloop' m₁ hm₁
    · exact .inr ⟨err, r, bind_run_error hskip, hloop⟩

/-- Induction on the levels. Below the last one there are no aggregates. -/
theorem skips_skipWithDepth {n depth : Nat} (hn : 0 < n) (hdepth : maxNestingDepth < depth + n) :
    Skips (skipWithDepth n depth) depth := by
  induction n generalizing depth with
  | zero => exact absurd hn (Nat.lt_irrefl 0)
  | succ n ih =>
    intro buffer pos stack hpos hlength hstack
    have hturns : ∀ m, buffer.length < pos + m → ∃ k, m = k + 1 := fun m hm => Nat.exists_eq_succ_of_ne_zero (by omega)
    have hscan : ∀ {x : Except Stop (Option Nat) × ValkeyReader}, scanOne depth ⟨buffer, pos, 0⟩ = x →
        scanOne (⟨pos, stack, 0⟩ : ReplyScanner).stack.length ⟨buffer, pos, 0⟩ = x := by
      intro x hx
      show scanOne stack.length _ = x
      rw [hlength, hx]
    unfold skipWithDepth
    rcases steady_scanOne depth buffer pos hpos with ⟨children, pos₁, _, hpos₁, hrun⟩ | ⟨err, herr, hrun⟩ | ⟨r, hrun⟩
    · have hnow := hrun []
      rw [List.append_nil] at hnow
      have hlt := scanOne_lt hnow
      rw [bind_run_ok hnow]
      by_cases hchildren : children.getD 0 = 0
      · have hskip : skipType (skipWithDepth n (depth + 1)) children ⟨buffer, pos₁, 0⟩ = (.ok (), ⟨buffer, pos₁, 0⟩) := by
          cases children with
          | none => rfl
          | some c =>
            change c = 0 at hchildren
            subst hchildren
            rfl
        refine .inl ⟨pos₁, hpos₁, hskip, fun stack' hstack' m hm => ?_⟩
        obtain ⟨k, rfl⟩ := hturns m hm
        refine ⟨k, by omega, ?_⟩
        rw [scanLoop_value (hscan hnow) hchildren, finishLoop_eq hstack']
      · obtain ⟨c, rfl⟩ : ∃ c, children = some (c + 1) := by
          cases children with
          | none => exact absurd rfl hchildren
          | some c => exact (Nat.exists_eq_succ_of_ne_zero hchildren).imp fun _ h => congrArg some h
        have hlevel : depth < maxNestingDepth := by
          by_contra hdeep
          cases scanOne_depth (Nat.not_lt.1 hdeep) _ _ _ hnow
        have hchild : Skips (skipWithDepth n (depth + 1)) (depth + 1) := ih (by omega) (by omega)
        rcases skips_skipMany hchild c hpos₁ hlength hstack with ⟨pos', hpos', hskip, hloop⟩ | ⟨err, r, hskip, hloop⟩
        · refine .inl ⟨pos', hpos', hskip, fun stack' hstack' m hm => ?_⟩
          obtain ⟨k, rfl⟩ := hturns m hm
          rw [scanLoop_aggregate (hscan hnow)]
          exact hloop stack' hstack' k (by omega)
        · refine .inr ⟨err, r, hskip, fun m hm => ?_⟩
          obtain ⟨k, rfl⟩ := hturns m hm
          rw [scanLoop_aggregate (hscan hnow)]
          exact hloop k (by omega)
    · obtain ⟨r, hnow⟩ := hrun []
      rw [List.append_nil] at hnow
      refine .inr ⟨err, r, bind_run_error hnow, fun m hm => ?_⟩
      obtain ⟨k, rfl⟩ := hturns m hm
      rw [scanLoop_error (hscan hnow) herr, stopped, if_neg herr]
    · refine .inr ⟨.invalidResponse, r, bind_run_error hrun, fun m hm => ?_⟩
      obtain ⟨k, rfl⟩ := hturns m hm
      obtain ⟨r', hwait, hbuffer, hr⟩ := scanOne_wait (fun j hj => absurd hj (Nat.not_lt_zero j)) hrun
      obtain ⟨skip, hskipAt, _⟩ : ∃ skip, (⟨pos, stack, 0⟩ : ReplyScanner).skipAt r' = .ok skip ∧ Searched _ skip :=
        skipAt_ok hbuffer hr
      rw [scanLoop_wait (hscan hwait) hskipAt]
      rfl

/-! ### One scan -/

/-- A reply is skipped by the scan, or both come to a stop. -/
theorem scan_init_or (buffer : List UInt8) :
    (∃ pos', pos' ≤ buffer.length ∧ skipWithDepth (maxNestingDepth + 1) 0 ⟨buffer, 0, 0⟩ = (.ok (), ⟨buffer, pos', 0⟩) ∧
      ReplyScanner.init.scan buffer = (.ok .complete, ⟨pos', [], 0⟩)) ∨
    ∃ err r, skipWithDepth (maxNestingDepth + 1) 0 ⟨buffer, 0, 0⟩ = (.error (.error err), r) ∧
      (ReplyScanner.init.scan buffer).1 = stopped err := by
  have hskips : Skips (skipWithDepth (maxNestingDepth + 1) 0) 0 := skips_skipWithDepth (by decide) (by decide)
  have hfuel : buffer.length < 0 + (buffer.length + 1) := by omega
  rcases hskips buffer 0 [] (Nat.zero_le _) rfl (fun c hc => absurd hc List.not_mem_nil) with
    ⟨pos', hpos', hskip, hloop⟩ | ⟨err, r, hskip, hloop⟩
  · obtain ⟨m', _, hscan⟩ := hloop [] rfl _ hfuel
    exact .inl ⟨pos', hpos', hskip, hscan⟩
  · exact .inr ⟨err, r, hskip, hloop _ hfuel⟩

theorem stopped_ne_complete (err : RedisError) : stopped err ≠ .ok .complete := by
  unfold stopped
  split <;> simp

section Parser
variable {F : Type} (doubles : Doubles F)

/-- The parser on the same buffer -/
theorem readValue_or (buffer : List UInt8) :
    (∃ value pos', (readValue doubles buffer) = (.ok value, ⟨buffer, pos', 0⟩) ∧
      ReplyScanner.init.scan buffer = (.ok .complete, ⟨pos', [], 0⟩)) ∨
    (∃ err, err ≠ .invalidResponse ∧ (readValue doubles buffer).1 = .error (.error err)) ∨
    (readValue doubles buffer).1 = .error (.error .invalidResponse) ∧
      (ReplyScanner.init.scan buffer).1 ≠ .ok .complete := by
  have hfollows : Follows (readValueWithDepth doubles (maxNestingDepth + 1) 0) (skipWithDepth (maxNestingDepth + 1) 0) :=
    follows_readValueWithDepth doubles (by decide) (by decide)
  have hscan := scan_init_or buffer
  unfold readValue
  rcases hfollows buffer 0 (Nat.zero_le _) with
    ⟨value, pos', _, hread, hskip⟩ | ⟨err, r, herr, hread⟩ | ⟨r, stop, r', hread, hskip⟩
  · rcases hscan with ⟨pos'', _, hskip', hscan⟩ | ⟨err, r, hskip', _⟩
    · rw [hskip] at hskip'
      have hpos : pos' = pos'' := congrArg (fun x => x.2.pos) hskip'
      subst hpos
      exact .inl ⟨value, pos', hread, hscan⟩
    · rw [hskip] at hskip'
      cases hskip'
  · exact .inr (.inl ⟨err, herr, congrArg Prod.fst hread⟩)
  · refine .inr (.inr ⟨congrArg Prod.fst hread, ?_⟩)
    rcases hscan with ⟨pos'', _, hskip', _⟩ | ⟨err, r, _, hscan⟩
    · rw [hskip] at hskip'
      cases hskip'
    · rw [hscan]
      exact stopped_ne_complete err

end Parser

/-! ### Growing buffers -/

/-- A scanner that has been given a buffer, and longer and longer ones, and has not found the end of a reply -/
inductive Reached : List UInt8 → ReplyScanner → Prop where
  | init : Reached [] .init
  | scan {buffer longer : List UInt8} {s : ReplyScanner} (h : Reached buffer s) (hlonger : buffer <+: longer)
      (hmore : (s.scan longer).1 ≠ .ok .complete) : Reached longer (s.scan longer).2

/-- The scanner is where a new one would come to. -/
structure Resumable (buffer : List UInt8) (s : ReplyScanner) : Prop extends Sound buffer s where
  again : ∀ more m, (buffer ++ more).length < m → ∃ m', (buffer ++ more).length < s.pos + m' ∧
    scanLoop (buffer ++ more) m ReplyScanner.init = scanLoop (buffer ++ more) m' s.restart

theorem Resumable.append (h : Resumable buffer s) (more : List UInt8) :
    Resumable (buffer ++ more) s where
  toSound := h.toSound.append more
  again := by
    intro more' m hm
    rw [List.append_assoc] at hm ⊢
    exact h.again (more ++ more') m hm

theorem scan_or (h : Sound buffer s) : Outcome buffer s (s.scan buffer) := by
  apply scanLoop_or h
  omega

theorem Resumable.scan (h : Resumable buffer s)
    (hmore : (s.scan buffer).1 ≠ .ok .complete) : Resumable buffer (s.scan buffer).2 := by
  rcases scan_or h.toSound with ⟨pos', _, hresult, _⟩ | ⟨s', hresult, hsound, _, hnext⟩ | ⟨err, s', hresult, hsound, hnext⟩
  · exact absurd (congrArg Prod.fst hresult) hmore
  · rw [hresult]
    refine ⟨hsound, fun more m hm => ?_⟩
    obtain ⟨m₁, hm₁, heq₁⟩ := h.again more m hm
    obtain ⟨m₂, hm₂, heq₂⟩ := hnext more m₁ hm₁
    exact ⟨m₂, hm₂, heq₁.trans heq₂⟩
  · rw [hresult]
    refine ⟨hsound, fun more m hm => ?_⟩
    obtain ⟨m₁, hm₁, heq₁⟩ := h.again more m hm
    obtain ⟨_, m₂, hm₂, heq₂⟩ := hnext more m₁ hm₁
    exact ⟨m₂, hm₂, heq₁.trans heq₂⟩

theorem Reached.resumable (h : Reached buffer s) : Resumable buffer s := by
  induction h with
  | init => exact
    { pos := Nat.le_refl 0
      waiting := fun c hc => absurd hc List.not_mem_nil
      searched := fun j hj => absurd hj (Nat.not_lt_zero j)
      again := fun more m hm => ⟨m, by rw [show ReplyScanner.init.pos = 0 from rfl]; omega, rfl⟩ }
  | scan _ hlonger hmore ih =>
    obtain ⟨more, rfl⟩ := hlonger
    exact (ih.append more).scan hmore

/-- A resumed scan comes to what a new one comes to. -/
theorem Resumable.scan_eq (h : Resumable buffer s) :
    (s.scan buffer).1 = (ReplyScanner.init.scan buffer).1 ∧
      ((s.scan buffer).1 = .ok .complete → (s.scan buffer).2 = (ReplyScanner.init.scan buffer).2) ∧
      ∀ fault, (s.scan buffer).1 ≠ .error (.fault fault) := by
  obtain ⟨m, hm, heq⟩ := h.again [] (buffer.length + 1) (by rw [List.append_nil]; omega)
  rw [List.append_nil] at hm heq
  have hinit : ReplyScanner.init.scan buffer = scanLoop buffer m s.restart := heq
  rw [hinit]
  rcases scan_or h.toSound with ⟨pos', _, hresult, hnext⟩ | ⟨s', hresult, _, hnow, _⟩ | ⟨err, s', hresult, _, hnext⟩
  · have hnow := hnext [] m (by rw [List.append_nil]; exact hm)
    rw [List.append_nil] at hnow
    rw [hresult, hnow]
    exact ⟨rfl, fun _ => rfl, fun fault h => nomatch h⟩
  · rw [hresult, hnow m hm]
    exact ⟨rfl, fun h => (nomatch h), fun fault h => nomatch h⟩
  · obtain ⟨hnow, _⟩ := hnext [] m (by rw [List.append_nil]; exact hm)
    rw [List.append_nil] at hnow
    rw [hresult, hnow]
    exact ⟨rfl, fun h => (nomatch h), fun fault h => nomatch h⟩

theorem resumable_init (buffer : List UInt8) : Resumable buffer ReplyScanner.init := by
  have hinit := Reached.init.resumable.append buffer
  rw [List.nil_append] at hinit
  exact hinit

/-- What is complete stays complete. -/
theorem scan_complete_append (h : (ReplyScanner.init.scan buffer).1 = .ok .complete)
    (more : List UInt8) : (ReplyScanner.init.scan (buffer ++ more)).1 = .ok .complete := by
  rcases scan_or (resumable_init buffer).toSound with
    ⟨pos', _, hresult, hnext⟩ | ⟨s', hresult, _, _, _⟩ | ⟨err, s', hresult, _, _⟩
  · have hfuel : (buffer ++ more).length < ReplyScanner.init.pos + ((buffer ++ more).length + 1) := by
      show _ < 0 + _
      omega
    exact congrArg Prod.fst (hnext more _ hfuel)
  · rw [hresult] at h
    cases h
  · rw [hresult] at h
    cases h

/-- **One scanner for a growing buffer.** Until it has found the end of a reply it says what a new one would say. When it
has, the parser has all the bytes it wants, and gets as far if it likes the value; when it has not, the parser does not
succeed; and what the parser reads is complete, in a longer buffer too. No counter goes below zero. -/
theorem scan_readValue {F : Type} (doubles : Doubles F) {buffer longer : List UInt8} {s : ReplyScanner}
    (hreached : Reached buffer s) (hlonger : buffer <+: longer) :
    (s.scan longer).1 = (ReplyScanner.init.scan longer).1 ∧
    (∀ fault, (s.scan longer).1 ≠ .error (.fault fault)) ∧
    ((s.scan longer).1 = .ok .complete →
      (readValue doubles longer).1 ≠ .error (.error .invalidResponse) ∧
      ∀ value, (readValue doubles longer).1 = .ok value → (readValue doubles longer).2.pos = (s.scan longer).2.pos) ∧
    ((s.scan longer).1 = .ok .needMoreData → ∀ value, (readValue doubles longer).1 ≠ .ok value) ∧
    ∀ value, (readValue doubles longer).1 = .ok value →
      (s.scan longer).1 = .ok .complete ∧ ∀ more, (ReplyScanner.init.scan (longer ++ more)).1 = .ok .complete := by
  obtain ⟨more, rfl⟩ := hlonger
  obtain ⟨heq, hstate, hfault⟩ := (hreached.resumable.append more).scan_eq
  generalize buffer ++ more = longer at *
  refine ⟨heq, hfault, fun hcomplete => ⟨?_, ?_⟩, fun hwait value hvalue => ?_, fun value hvalue => ?_⟩
  · rcases readValue_or doubles longer with ⟨value, pos', hread, _⟩ | ⟨err, herr, hread⟩ | ⟨_, hscan⟩
    · rw [hread]
      simp
    · rw [hread]
      simpa using herr
    · exact absurd (heq.symm.trans hcomplete) hscan
  · intro value hvalue
    rcases readValue_or doubles longer with ⟨_, pos', hread, hscan⟩ | ⟨err, _, hread⟩ | ⟨hread, _⟩
    · rw [hstate hcomplete, hread, hscan]
    · rw [hread] at hvalue
      cases hvalue
    · rw [hread] at hvalue
      cases hvalue
  · rcases readValue_or doubles longer with ⟨_, pos', _, hscan⟩ | ⟨err, _, hread⟩ | ⟨hread, _⟩
    · rw [heq, hscan] at hwait
      cases hwait
    · rw [hread] at hvalue
      cases hvalue
    · rw [hread] at hvalue
      cases hvalue
  · rcases readValue_or doubles longer with ⟨_, pos', _, hscan⟩ | ⟨err, _, hread⟩ | ⟨hread, _⟩
    · have hcomplete : (ReplyScanner.init.scan longer).1 = .ok .complete := congrArg Prod.fst hscan
      exact ⟨heq.trans hcomplete, scan_complete_append hcomplete⟩
    · rw [hread] at hvalue
      cases hvalue
    · rw [hread] at hvalue
      cases hvalue

/-- An array of one simple string, cut in the string -/
theorem scan_readValue_array :
    ((ReplyScanner.init.scan (ascii "*1\r\n+")).2.scan (ascii "*1\r\n+a\r\n")).1 = .ok .complete ∧
    (readValue (⟨(), (), (), fun _ => ((), 0)⟩ : Doubles Unit) (ascii "*1\r\n+a\r\n")).2.pos =
      ((ReplyScanner.init.scan (ascii "*1\r\n+")).2.scan (ascii "*1\r\n+a\r\n")).2.pos := by
  have hreached : Reached (ascii "*1\r\n+") (ReplyScanner.init.scan (ascii "*1\r\n+")).2 := by
    refine .scan .init (List.nil_prefix) ?_
    rw [show (ReplyScanner.init.scan (ascii "*1\r\n+")).1 = .ok .needMoreData from rfl]
    simp
  obtain ⟨_, _, hcomplete, _, hread⟩ := scan_readValue (⟨(), (), (), fun _ => ((), 0)⟩ : Doubles Unit) hreached
    (⟨ascii "a\r\n", rfl⟩ : ascii "*1\r\n+" <+: ascii "*1\r\n+a\r\n")
  have hscan := (hread (.array [.simpleString (ascii "a")]) rfl).1
  exact ⟨hscan, (hcomplete hscan).2 _ rfl⟩

/-- Behind a reply the scanner goes on to the next one, unless it is reset. -/
theorem scan_twice :
    ¬∀ buffer longer : List UInt8, buffer <+: longer →
      ((ReplyScanner.init.scan buffer).2.scan longer).1 = (ReplyScanner.init.scan longer).1 := by
  intro h
  have hagain := h (ascii "+a\r\n") (ascii "+a\r\n") (List.prefix_refl _)
  rw [show ((ReplyScanner.init.scan (ascii "+a\r\n")).2.scan (ascii "+a\r\n")).1 = .ok .needMoreData from rfl,
    show (ReplyScanner.init.scan (ascii "+a\r\n")).1 = .ok .complete from rfl] at hagain
  cases hagain

end Funbun.Valkey
