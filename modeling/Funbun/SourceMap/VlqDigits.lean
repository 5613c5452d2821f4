import Funbun.SourceMap.Vlq

/-! What the decoder takes for a number.

It masks a byte to seven bits and looks it up. The entry of what is no digit says that another digit follows: such a byte
never ends a number, but it does not stop one either. -/
namespace Funbun.SourceMap.Vlq

/-- Whether another digit follows a digit -/
def continues (digit : UInt8) : Bool := 32 ≤ base64.idxOf digit

/-- A number: digits, of which all but the last one are followed by another -/
structure IsNumber (bytes : List UInt8) : Prop where
  split : ∃ digits last, bytes = digits ++ [last] ∧ (∀ byte ∈ digits, byte ∈ base64 ∧ continues byte = true) ∧
    last ∈ base64 ∧ continues last = false

/-- Whether the decoder goes on behind a byte -/
def carries (byte : UInt8) : Bool := lut (byte &&& 0x7f) &&& 32 != 0

/-- The bytes that the decoder looks at -/
def window (encoded : List UInt8) (start : Nat) : List UInt8 := (encoded.drop start).take (vlqMaxInBytes + 1)

/-- If the decoder gets on, it takes a number. -/
def TakesNumber (encoded : List UInt8) (start : Nat) : Prop :=
  (decode encoded start).start ≠ start →
    ∃ number rest, encoded.drop start = number ++ rest ∧ IsNumber number ∧
      (decode encoded start).start = start + number.length

/-- Where there is a byte behind which the decoder does not go on, the bytes up to there are digits. -/
def Clean (encoded : List UInt8) (start : Nat) : Prop :=
  ∀ run byte rest, window encoded start = run ++ byte :: rest → (∀ b ∈ run, carries b = true) → carries byte = false →
    ∀ b ∈ run ++ [byte], b ∈ base64

theorem carries_digit : ∀ byte ∈ base64, carries byte = continues byte := by decide +kernel

variable {byte : UInt8} {run encoded : List UInt8} {start : Nat}

theorem ends_of_not_carries (h : carries byte = false) : lut (byte &&& 0x7f) &&& 32 = 0 := by
  simpa [carries] using h

theorem goes_on_of_carries (h : carries byte = true) : lut (byte &&& 0x7f) &&& 32 ≠ 0 := by
  simpa [carries] using h

theorem start_decodeDigits_all (start : Nat) {bytes : List UInt8} (h : ∀ b ∈ bytes, carries b = true) (i shift vlq : Nat) :
    (decodeDigits start bytes i shift vlq).start = start := by
  induction bytes generalizing i shift vlq with
  | nil => rfl
  | cons byte bytes ih =>
    have hbyte := goes_on_of_carries (h byte List.mem_cons_self)
    simp only [decodeDigits, if_neg hbyte]
    exact ih (fun b hb => h b (List.mem_cons_of_mem _ hb)) _ _ _

theorem start_decodeDigits (start : Nat) (hrun : ∀ b ∈ run, carries b = true)
    (hbyte : carries byte = false) (rest : List UInt8) (i shift vlq : Nat) :
    (decodeDigits start (run ++ byte :: rest) i shift vlq).start = start + i + run.length + 1 := by
  induction run generalizing i shift vlq with
  | nil =>
    show (decodeDigits start (byte :: rest) i shift vlq).start = _
    simp only [decodeDigits, if_pos (ends_of_not_carries hbyte)]
    rfl
  | cons b run ih =>
    have hb := goes_on_of_carries (hrun b List.mem_cons_self)
    show (decodeDigits start (b :: (run ++ byte :: rest)) i shift vlq).start = _
    simp only [decodeDigits, if_neg hb]
    rw [ih (fun b' hb' => hrun b' (List.mem_cons_of_mem _ hb')), List.length_cons]
    omega

/-- Every list is a run behind whose bytes the decoder goes on, and perhaps a byte where it stops. -/
theorem exists_run (bytes : List UInt8) :
    (∀ b ∈ bytes, carries b = true) ∨
      ∃ run byte rest, bytes = run ++ byte :: rest ∧ (∀ b ∈ run, carries b = true) ∧ carries byte = false := by
  induction bytes with
  | nil => exact .inl (by simp)
  | cons b bytes ih =>
    cases hb : carries b with
    | false => exact .inr ⟨[], b, bytes, rfl, by simp, hb⟩
    | true =>
      rcases ih with hall | ⟨run, byte, rest, rfl, hrun, hbyte⟩
      · exact .inl (List.forall_mem_cons.2 ⟨hb, hall⟩)
      · exact .inr ⟨b :: run, byte, rest, rfl, List.forall_mem_cons.2 ⟨hb, hrun⟩, hbyte⟩

theorem start_decode_run {rest : List UInt8}
    (h : window encoded start = run ++ byte :: rest) (hrun : ∀ b ∈ run, carries b = true) (hbyte : carries byte = false) :
    (decode encoded start).start = start + run.length + 1 := by
  show (decodeDigits start (window encoded start) 0 0 0).start = _
  rw [h, start_decodeDigits start hrun hbyte]
  omega

theorem start_decode_all (h : ∀ b ∈ window encoded start, carries b = true) :
    (decode encoded start).start = start := start_decodeDigits_all start h 0 0 0

theorem isNumber_run (hrun : ∀ b ∈ run, carries b = true) (hbyte : carries byte = false)
    (hdigits : ∀ b ∈ run ++ [byte], b ∈ base64) : IsNumber (run ++ [byte]) := by
  have hlast : byte ∈ base64 := hdigits byte (by simp)
  refine ⟨run, byte, rfl, fun b hb => ?_, hlast, (carries_digit byte hlast).symm.trans hbyte⟩
  have hb' : b ∈ base64 := hdigits b (List.mem_append_left _ hb)
  exact ⟨hb', (carries_digit b hb').symm.trans (hrun b hb)⟩

theorem drop_eq_window {rest : List UInt8}
    (h : window encoded start = run ++ byte :: rest) : ∃ more, encoded.drop start = (run ++ [byte]) ++ more := by
  refine ⟨rest ++ (encoded.drop start).drop (vlqMaxInBytes + 1), ?_⟩
  calc encoded.drop start = window encoded start ++ (encoded.drop start).drop (vlqMaxInBytes + 1) :=
        (List.take_append_drop _ _).symm
    _ = (run ++ [byte]) ++ (rest ++ (encoded.drop start).drop (vlqMaxInBytes + 1)) := by
        rw [h]
        simp only [List.append_assoc, List.cons_append, List.nil_append]

theorem takesNumber_of_clean (h : Clean encoded start) : TakesNumber encoded start := by
  intro hne
  rcases exists_run (window encoded start) with hall | ⟨run, byte, rest, hwindow, hrun, hbyte⟩
  · exact absurd (start_decode_all hall) hne
  · obtain ⟨more, hdrop⟩ := drop_eq_window hwindow
    refine ⟨run ++ [byte], more, hdrop, isNumber_run hrun hbyte (h run byte rest hwindow hrun hbyte), ?_⟩
    rw [start_decode_run hwindow hrun hbyte, List.length_append, List.length_singleton]
    omega

theorem clean_of_takesNumber (h : TakesNumber encoded start) : Clean encoded start := by
  intro run byte rest hwindow hrun hbyte
  have hstart := start_decode_run hwindow hrun hbyte
  obtain ⟨number, rest', hdrop, hnumber, hlength⟩ := h (by omega)
  obtain ⟨more, hdrop'⟩ := drop_eq_window hwindow
  have hlen : number.length = (run ++ [byte]).length := by
    rw [List.length_append, List.length_singleton]
    omega
  have htaken : number = run ++ [byte] := (List.append_inj (hdrop.symm.trans hdrop') hlen).1
  obtain ⟨digits, last, hsplit, hdigits, hlast, -⟩ := hnumber.split
  rw [← htaken, hsplit]
  intro b hb
  rcases List.mem_append.1 hb with hb | hb
  · exact (hdigits b hb).1
  · rw [List.mem_singleton.1 hb]
    exact hlast

/-- A number that was written is read back wherever it stands, and the decoder takes nothing else exactly where no byte
that is no digit stands in front of the end it finds. -/
theorem decode_exact (encoded : List UInt8) (start : Nat) :
    (∀ value : Int, InRange value → ∀ before rest : List UInt8,
      decode (before ++ encode value ++ rest) before.length = ⟨value, before.length + (encode value).length⟩) ∧
    (TakesNumber encoded start ↔ Clean encoded start) :=
  ⟨fun _ h before rest => decode_encode h before rest, clean_of_takesNumber, takesNumber_of_clean⟩

theorem decode_exact_between :
    decode ([','.toUInt8] ++ encode (-5) ++ [';'.toUInt8]) 1 = ⟨-5, 2⟩ ∧ Clean [','.toUInt8, 'L'.toUInt8, ';'.toUInt8] 1 := by
  refine ⟨(decode_exact [] 0).1 (-5) (by unfold InRange; decide) [','.toUInt8] [';'.toUInt8],
    (decode_exact _ _).2.1 fun _ => ?_⟩
  exact ⟨['L'.toUInt8], [';'.toUInt8], rfl, ⟨[], 'L'.toUInt8, rfl, List.forall_mem_nil _, by decide, by decide⟩,
    by decide +kernel⟩

/-- A comma is swallowed. -/
theorem decode_swallows_comma : ¬ ∀ encoded start, TakesNumber encoded start := by
  intro h
  have hstart : (decode [','.toUInt8, 'A'.toUInt8] 0).start = 2 := by decide +kernel
  obtain ⟨number, rest, hdrop, hnumber, -⟩ := h [','.toUInt8, 'A'.toUInt8] 0 (by rw [hstart]; decide)
  obtain ⟨digits, last, rfl, hdigits, hlast, -⟩ := hnumber.split
  have hcomma : ','.toUInt8 ∈ base64 := by
    cases digits with
    | nil =>
      have hhead : ','.toUInt8 = last := (List.cons.inj hdrop).1
      rw [hhead]
      exact hlast
    | cons d digits =>
      have hhead : ','.toUInt8 = d := (List.cons.inj hdrop).1
      rw [hhead]
      exact (hdigits d List.mem_cons_self).1
  exact absurd hcomma (by decide)

end Funbun.SourceMap.Vlq
