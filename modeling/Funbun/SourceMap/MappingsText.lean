import Funbun.SourceMap.Chunk
import Funbun.SourceMap.VlqDigits

/-! Texts of mappings that others have written.

A segment has four fields or five, and a field may be any number that the decoder reads, be it written as the encoder would
write it or not. A text is read in one way only: `decodes_unique`. -/
namespace Funbun.SourceMap

namespace Vlq

/-- A number that the decoder takes whole -/
structure Field (number : List UInt8) : Prop where
  isNumber : IsNumber number
  fits : number.length ≤ vlqMaxInBytes + 1

def valueOf (number : List UInt8) : Int := (decode number 0).value

variable {number : List UInt8}

theorem IsNumber.carries (h : IsNumber number) :
    ∃ digits last, number = digits ++ [last] ∧ (∀ b ∈ digits, Vlq.carries b = true) ∧ Vlq.carries last = false := by
  obtain ⟨digits, last, hsplit, hdigits, hlast, hends⟩ := h.split
  refine ⟨digits, last, hsplit, fun b hb => ?_, (carries_digit last hlast).trans hends⟩
  exact (carries_digit b (hdigits b hb).1).trans (hdigits b hb).2

theorem IsNumber.ne_nil (h : IsNumber number) : number ≠ [] := by
  obtain ⟨digits, last, rfl, -⟩ := h.split
  simp

theorem IsNumber.digits (h : IsNumber number) : ∀ b ∈ number, b ∈ base64 := by
  obtain ⟨digits, last, rfl, hdigits, hlast, -⟩ := h.split
  intro b hb
  rcases List.mem_append.1 hb with hb | hb
  · exact (hdigits b hb).1
  · rw [List.mem_singleton.1 hb]
    exact hlast

/-- The value does not depend on where the number stands, nor on what stands behind it. -/
theorem value_decodeDigits {digits : List UInt8} {last : UInt8} (hdigits : ∀ b ∈ digits, carries b = true)
    (hlast : carries last = false) (start start' : Nat) (more more' : List UInt8) (i i' shift vlq : Nat) :
    (decodeDigits start (digits ++ last :: more) i shift vlq).value =
      (decodeDigits start' (digits ++ last :: more') i' shift vlq).value := by
  induction digits generalizing i i' shift vlq with
  | nil =>
    show (decodeDigits start (last :: more) i shift vlq).value = (decodeDigits start' (last :: more') i' shift vlq).value
    simp only [decodeDigits, if_pos (ends_of_not_carries hlast)]
  | cons b digits ih =>
    have hb := goes_on_of_carries (hdigits b List.mem_cons_self)
    show (decodeDigits start (b :: (digits ++ last :: more)) i shift vlq).value =
      (decodeDigits start' (b :: (digits ++ last :: more')) i' shift vlq).value
    simp only [decodeDigits, if_neg hb]
    exact ih (fun b' hb' => hdigits b' (List.mem_cons_of_mem _ hb')) _ _ _ _

theorem decode_field (h : Field number) (before rest : List UInt8) :
    decode (before ++ number ++ rest) before.length = ⟨valueOf number, before.length + number.length⟩ := by
  obtain ⟨digits, last, rfl, hdigits, hlast⟩ := h.isNumber.carries
  have hfits := h.fits
  have hwindow (more : List UInt8) : ((digits ++ [last]) ++ more).take (vlqMaxInBytes + 1) =
      digits ++ last :: more.take (vlqMaxInBytes + 1 - (digits ++ [last]).length) := by
    rw [List.take_append, List.take_of_length_le hfits, List.append_assoc]
    rfl
  have hdecode : decode (before ++ (digits ++ [last]) ++ rest) before.length =
      decodeDigits before.length (digits ++ last :: rest.take (vlqMaxInBytes + 1 - (digits ++ [last]).length)) 0 0 0 := by
    unfold decode
    rw [List.append_assoc, List.drop_left, hwindow]
  have hvalue : valueOf (digits ++ [last]) =
      (decodeDigits before.length (digits ++ last :: rest.take (vlqMaxInBytes + 1 - (digits ++ [last]).length)) 0 0 0).value := by
    unfold valueOf decode
    rw [List.drop_zero, ← List.append_nil (digits ++ [last]), hwindow]
    exact value_decodeDigits hdigits hlast _ _ _ _ _ _ _ _
  have hstart := start_decodeDigits before.length hdigits hlast
    (rest.take (vlqMaxInBytes + 1 - (digits ++ [last]).length)) 0 0 0
  rw [hdecode, hvalue]
  have hlength : (digits ++ [last]).length = digits.length + 1 := by simp
  generalize decodeDigits before.length _ 0 0 0 = result at hstart
  cases result
  simp only at hstart
  simp only [VlqResult.mk.injEq, true_and]
  omega

/-- What the encoder writes is a field. -/
theorem field_encode {value : Int} (h : InRange value) : Field (encode value) ∧ valueOf (encode value) = value := by
  have hdecode := decode_encode h [] []
  rw [List.nil_append, List.append_nil, List.length_nil, Nat.zero_add] at hdecode
  have hstart : (decode (encode value) 0).start = (encode value).length := by rw [hdecode]
  obtain ⟨hne, hdigits⟩ := encode_shape h
  have hlength : (encode value).length ≤ vlqMaxInBytes + 1 := by
    obtain ⟨digits, heq, hencode, -⟩ := encode_spec h
    rw [heq]
    exact Nat.le_succ_of_le (length_encodeDigits hencode)
  have hwindow : window (encode value) 0 = encode value := List.take_of_length_le hlength
  have hpos := List.length_pos_of_ne_nil hne
  refine ⟨⟨?_, hlength⟩, by unfold valueOf; rw [hdecode]⟩
  rcases exists_run (encode value) with hall | ⟨run, byte, rest, hsplit, hrun, hbyte⟩
  · have := start_decode_all (by rw [hwindow]; exact hall)
    omega
  · have hend := start_decode_run (hwindow.trans hsplit) hrun hbyte
    have htotal := congrArg List.length hsplit
    rw [List.length_append, List.length_cons] at htotal
    obtain rfl : rest = [] := List.eq_nil_of_length_eq_zero (by omega)
    rw [hsplit] at hdigits ⊢
    exact isNumber_run hrun hbyte hdigits

/-- Two texts that start with a number start with the same number. -/
theorem field_unique {a b x y : List UInt8} (ha : Field a) (hb : Field b) (h : a ++ x = b ++ y) : a = b ∧ x = y := by
  have hdecode := decode_field ha [] x
  rw [List.nil_append, h, ← List.nil_append b, decode_field hb [] y] at hdecode
  have hlength : b.length = a.length := by
    have := congrArg VlqResult.start hdecode
    simpa using this
  exact List.append_inj h hlength.symm

end Vlq

/-! ### Texts -/

/-- A segment as it is written. The fifth field is the index of a name. -/
structure Written where
  generatedColumn : List UInt8
  sourceIndex : List UInt8
  originalLine : List UInt8
  originalColumn : List UInt8
  nameIndex : Option (List UInt8)

namespace Written

structure Valid (w : Written) : Prop where
  generatedColumn : Vlq.Field w.generatedColumn
  sourceIndex : Vlq.Field w.sourceIndex
  originalLine : Vlq.Field w.originalLine
  originalColumn : Vlq.Field w.originalColumn
  nameIndex : ∀ number ∈ w.nameIndex, Vlq.Field number

def bytes (w : Written) : List UInt8 :=
  w.generatedColumn ++ (w.sourceIndex ++ (w.originalLine ++ (w.originalColumn ++ w.nameIndex.getD [])))

def delta (w : Written) : Segment :=
  ⟨Vlq.valueOf w.generatedColumn, Vlq.valueOf w.sourceIndex, Vlq.valueOf w.originalLine, Vlq.valueOf w.originalColumn⟩

end Written

inductive Entry where
  | newline
  | segment (w : Written)

def Entry.Valid : Entry → Prop
  | .newline => True
  | .segment w => w.Valid

/-- The comma behind a segment, if another one follows -/
def gap : List Entry → List UInt8
  | .segment _ :: _ => [comma]
  | _ => []

def textOf : List Entry → List UInt8
  | [] => []
  | .newline :: entries => semicolon :: textOf entries
  | .segment w :: entries => w.bytes ++ (gap entries ++ textOf entries)

structure NamedMapping where
  state : SourceMapState
  nameIndex : Option Int
  deriving DecidableEq

def mappingsOf (s : SourceMapState) (name : Int) : List Entry → List NamedMapping
  | [] => []
  | .newline :: entries => mappingsOf s.newline name entries
  | .segment w :: entries =>
    let name := name + (w.nameIndex.map Vlq.valueOf).getD 0
    ⟨s.move w.delta, w.nameIndex.map fun _ => name⟩ :: mappingsOf (s.move w.delta) name entries

def Decodes (text : List UInt8) (mappings : List NamedMapping) : Prop :=
  ∃ entries, (∀ e ∈ entries, e.Valid) ∧ text = textOf entries ∧ mappingsOf .zero 0 entries = mappings

theorem separator_not_digit : comma ∉ Vlq.base64 ∧ semicolon ∉ Vlq.base64 := by decide

/-- A field is not empty, and its first byte is a digit. -/
theorem Vlq.Field.cons {number : List UInt8} (h : Vlq.Field number) :
    ∃ digit rest, number = digit :: rest ∧ digit ∈ Vlq.base64 := by
  obtain ⟨digit, rest, rfl⟩ := List.exists_cons_of_ne_nil h.isNumber.ne_nil
  exact ⟨digit, rest, rfl, h.isNumber.digits digit List.mem_cons_self⟩

theorem Written.Valid.cons {w : Written} (h : w.Valid) : ∃ digit rest, w.bytes = digit :: rest ∧ digit ∈ Vlq.base64 := by
  obtain ⟨digit, rest, heq, hdigit⟩ := h.generatedColumn.cons
  unfold bytes
  rw [heq]
  exact ⟨digit, _, rfl, hdigit⟩

/-- What stands behind a segment starts with a separator. -/
theorem head_separated (entries : List Entry) :
    (gap entries ++ textOf entries).head? = none ∨ (gap entries ++ textOf entries).head? = some comma ∨
      (gap entries ++ textOf entries).head? = some semicolon := by
  cases entries with
  | nil => exact .inl rfl
  | cons e entries =>
    cases e with
    | newline => exact .inr (.inr rfl)
    | segment w => exact .inr (.inl rfl)

theorem field_not_separated {number rest : List UInt8} (h : Vlq.Field number) (entries : List Entry) :
    number ++ rest ≠ gap entries ++ textOf entries := by
  obtain ⟨digit, digits, rfl, hdigit⟩ := h.cons
  intro heq
  have hhead : (gap entries ++ textOf entries).head? = some digit := by
    rw [← heq]
    rfl
  rcases head_separated entries with hnone | hcomma | hsemicolon
  · rw [hnone] at hhead
    cases hhead
  · rw [hcomma, Option.some.injEq] at hhead
    exact separator_not_digit.1 (hhead ▸ hdigit)
  · rw [hsemicolon, Option.some.injEq] at hhead
    exact separator_not_digit.2 (hhead ▸ hdigit)

variable {entries entries' : List Entry}

/-- A segment is read in one way. -/
theorem bytes_unique {w w' : Written} (hw : w.Valid) (hw' : w'.Valid)
    (h : w.bytes ++ (gap entries ++ textOf entries) = w'.bytes ++ (gap entries' ++ textOf entries')) :
    w = w' ∧ gap entries ++ textOf entries = gap entries' ++ textOf entries' := by
  have hname := hw.nameIndex
  have hname' := hw'.nameIndex
  unfold Written.bytes at h
  simp only [List.append_assoc] at h
  obtain ⟨hcolumn, hfrom2⟩ := Vlq.field_unique hw.generatedColumn hw'.generatedColumn h
  obtain ⟨hsource, hfrom3⟩ := Vlq.field_unique hw.sourceIndex hw'.sourceIndex hfrom2
  obtain ⟨hline, hfrom4⟩ := Vlq.field_unique hw.originalLine hw'.originalLine hfrom3
  obtain ⟨horiginal, hfrom5⟩ := Vlq.field_unique hw.originalColumn hw'.originalColumn hfrom4
  obtain ⟨generatedColumn, sourceIndex, originalLine, originalColumn, name⟩ := w
  obtain ⟨generatedColumn', sourceIndex', originalLine', originalColumn', name'⟩ := w'
  simp only at hcolumn hsource hline horiginal hfrom5 hname hname'
  subst hcolumn hsource hline horiginal
  cases name with
  | none =>
    cases name' with
    | none => exact ⟨rfl, hfrom5⟩
    | some number' => exact absurd hfrom5.symm (field_not_separated (hname' number' rfl) entries)
  | some number =>
    cases name' with
    | none => exact absurd hfrom5 (field_not_separated (hname number rfl) entries')
    | some number' =>
      obtain ⟨rfl, hrest⟩ := Vlq.field_unique (hname number rfl) (hname' number' rfl) hfrom5
      exact ⟨rfl, hrest⟩

theorem textOf_of_separated
    (h : gap entries ++ textOf entries = gap entries' ++ textOf entries') : textOf entries = textOf entries' := by
  cases entries with
  | nil =>
    cases entries' with
    | nil => rfl
    | cons e' entries' => cases e' <;> cases h
  | cons e entries =>
    cases entries' with
    | nil => cases e <;> cases h
    | cons e' entries' =>
      cases e with
      | newline =>
        cases e' with
        | newline => exact h
        | segment w' => exact absurd (List.cons.inj h).1 (by decide)
      | segment w =>
        cases e' with
        | newline => exact absurd (List.cons.inj h).1 (by decide)
        | segment w' => exact (List.cons.inj h).2

theorem textOf_unique (hvalid : ∀ e ∈ entries, e.Valid)
    (hvalid' : ∀ e ∈ entries', e.Valid) (h : textOf entries = textOf entries') : entries = entries' := by
  have hdigit {w : Written} (hw : w.Valid) (rest : List UInt8) (after : List UInt8) : w.bytes ++ rest ≠ semicolon :: after := by
    obtain ⟨digit, digits, heq, hdigit⟩ := hw.cons
    intro hcons
    rw [heq] at hcons
    exact separator_not_digit.2 ((List.cons.inj hcons).1 ▸ hdigit)
  have hempty {w : Written} (hw : w.Valid) (rest : List UInt8) : w.bytes ++ rest ≠ [] := by
    obtain ⟨digit, digits, heq, -⟩ := hw.cons
    rw [heq]
    exact List.cons_ne_nil _ _
  induction entries generalizing entries' with
  | nil =>
    cases entries' with
    | nil => rfl
    | cons e' entries' =>
      cases e' with
      | newline => cases h
      | segment w' => exact absurd h.symm (hempty (hvalid' _ List.mem_cons_self) _)
  | cons e entries ih =>
    obtain ⟨he, hbehind⟩ := List.forall_mem_cons.1 hvalid
    cases entries' with
    | nil =>
      cases e with
      | newline => cases h
      | segment w => exact absurd h (hempty he _)
    | cons e' entries' =>
      obtain ⟨he', hbehind'⟩ := List.forall_mem_cons.1 hvalid'
      cases e with
      | newline =>
        cases e' with
        | newline => rw [ih hbehind hbehind' (List.cons.inj h).2]
        | segment w' => exact absurd h.symm (hdigit he' _ _)
      | segment w =>
        cases e' with
        | newline => exact absurd h (hdigit he _ _)
        | segment w' =>
          obtain ⟨hw, hrest⟩ := bytes_unique he he' h
          rw [hw, ih hbehind hbehind' (textOf_of_separated hrest)]

/-- A text is read in one way only. -/
theorem decodes_unique {text : List UInt8} {mappings mappings' : List NamedMapping}
    (h : Decodes text mappings) (h' : Decodes text mappings') : mappings = mappings' := by
  obtain ⟨entries, hvalid, htext, rfl⟩ := h
  obtain ⟨entries', hvalid', htext', rfl⟩ := h'
  rw [textOf_unique hvalid hvalid' (htext.symm.trans htext')]

end Funbun.SourceMap
