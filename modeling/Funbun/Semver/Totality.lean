import Funbun.Semver.Query

/-! Reading is total: every index is in range, and every loop comes to its end.

A read consumes no more than its input, so that what is left is always a slice, and every turn of a loop moves on. Only a
length that does not fit in 32 bits stops the program. -/
namespace Funbun.Semver

/-- A result that is as it should be, or a length of at least 32 bits where `n` is the length of the input -/
def Yields {α : Type} (n : Nat) (x : Checked α) (P : α → Prop) : Prop :=
  match x with
  | .ok a => P a
  | .error fault => fault = .intCast ∧ UInt32.size ≤ n

namespace Yields
variable {α β : Type} {m n : Nat} {x : Checked α} {f : α → Checked β} {P Q : α → Prop} {R : β → Prop}

theorem bind (hx : Yields n x P) (hf : ∀ a, P a → Yields n (f a) R) : Yields n (x >>= f) R := by
  cases x with
  | ok a => exact hf a hx
  | error fault => exact hx

theorem mono (hx : Yields m x P) (hmn : m ≤ n) (hPQ : ∀ a, P a → Q a) : Yields n x Q := by
  cases x with
  | ok a => exact hPQ a hx
  | error fault => exact ⟨hx.1, hx.2.trans hmn⟩

theorem cases (hx : Yields n x P) : (∃ a, x = .ok a ∧ P a) ∨ UInt32.size ≤ n ∧ x = .error .intCast := by
  cases x with
  | ok a => exact .inl ⟨a, rfl, hx⟩
  | error fault => exact .inr ⟨hx.2, hx.1 ▸ rfl⟩

end Yields

/-! ### Indices -/

theorem le_skipWhile (p : UInt8 → Bool) (input : List UInt8) (i : Nat) : i ≤ skipWhile p input i := Nat.le_add_right _ _

variable {p : UInt8 → Bool} {input : List UInt8} {i : Nat}

theorem skipWhile_le (h : i ≤ input.length) :
    skipWhile p input i ≤ input.length := by
  have hdrop := (List.takeWhile_prefix p (l := input.drop i)).length_le
  rw [List.length_drop] at hdrop
  unfold skipWhile
  omega

theorem skipWhile_of_not {c : UInt8} (hc : input[i]? = some c) (h : p c = false) : skipWhile p input i = i := by
  obtain ⟨hi, hget⟩ := List.getElem?_eq_some_iff.mp hc
  rw [skipWhile, List.drop_eq_getElem_cons hi, hget, List.takeWhile_cons_of_neg (by simp [h])]
  rfl

theorem lt_of_getElem? {c : UInt8} (h : input[i]? = some c) : i < input.length :=
  (List.getElem?_eq_some_iff.mp h).1

theorem lt_of_at? (h : at? p input i = true) : i < input.length := by
  unfold at? at h
  cases hget : input[i]? with
  | none => rw [hget] at h; cases h
  | some c => exact lt_of_getElem? hget

theorem SlicedString.sub_yields (s : SlicedString) {start stop n : Nat} (h : start ≤ stop) (h' : stop ≤ s.input.length) :
    Yields n (s.sub start stop) fun part => part.input.length = stop - start := by
  rw [sub, if_pos ⟨h, h'⟩]
  show ((s.input.drop start).take (stop - start)).length = _
  rw [List.length_take, List.length_drop]
  omega

/-! ### Tags -/

section Parse
variable (wyhash : List UInt8 → UInt64)

namespace Tag

theorem scan_yields (s : SlicedString) (initialPreCount : Nat) (n : Nat) (rest : List UInt8) (i : Nat) (state : TagState)
    (start : Nat) (tag : Tag) (hrest : i + rest.length = s.input.length) (hstart : start ≤ i) :
    Yields n (scan wyhash s initialPreCount rest i state start tag) fun (_, _, start, i) =>
      start ≤ i ∧ i ≤ s.input.length := by
  induction rest generalizing i state start tag with
  | nil => exact ⟨hstart, by simpa using hrest.le⟩
  | cons c rest ih =>
    have hnext : i + 1 + rest.length = s.input.length := by
      rw [List.length_cons] at hrest
      omega
    have hin : i ≤ s.input.length := by omega
    have hsub := s.sub_yields (n := n) hstart hin
    unfold scan
    split
    · -- what comes after the pre-release is put away
      have hrun (tag : Tag) : Yields n (if state ≠ .build then scan wyhash s initialPreCount rest (i + 1) .build (i + 1) tag
          else scan wyhash s initialPreCount rest (i + 1) state start tag)
          fun (_, _, start, i) => start ≤ i ∧ i ≤ s.input.length := by
        split
        · exact ih _ _ _ _ hnext (Nat.le_refl _)
        · exact ih _ _ _ _ hnext (hstart.trans (Nat.le_succ i))
      simp only
      split
      · exact hsub.bind fun _ _ => hrun _
      · exact hrun _
    · split
      · split
        · exact ih _ _ _ _ hnext (Nat.le_refl _)
        · exact ih _ _ _ _ hnext (hstart.trans (Nat.le_succ i))
      · split
        · exact ih _ _ _ _ hnext (hstart.trans (Nat.le_succ i))
        · cases state with
          | none => exact ⟨hstart, hin⟩
          | pre => exact hsub.bind fun _ _ => ⟨hstart, hin⟩
          | build => exact hsub.bind fun _ _ => ⟨hstart, hin⟩

/-- A tag is no longer than the input. -/
theorem parseWithPreCount_yields (s : SlicedString) (initialPreCount n : Nat) :
    Yields n (parseWithPreCount wyhash s initialPreCount) fun r => r.len ≤ s.input.length := by
  unfold parseWithPreCount
  simp only
  split
  · exact Nat.zero_le _
  · have hscan := scan_yields wyhash s initialPreCount n s.input 0 .none 0 .empty (Nat.zero_add _) (Nat.le_refl _)
    refine hscan.bind fun (tag, state, start, i) ⟨hstart, hin⟩ => ?_
    have hlen : i % UInt32.size ≤ s.input.length := (Nat.mod_le _ _).trans hin
    have hfinal : (if state = .none ∧ 0 < initialPreCount then (TagState.pre, 0) else (state, start)).2 ≤ i := by
      split
      · exact Nat.zero_le _
      · exact hstart
    simp only
    generalize (if state = .none ∧ 0 < initialPreCount then (TagState.pre, 0) else (state, start)) = final at hfinal
    obtain ⟨state, start⟩ := final
    cases state with
    | none => exact hlen
    | pre => exact (s.sub_yields hfinal hin).bind fun _ _ => hlen
    | build => exact (s.sub_yields hfinal hin).bind fun _ _ => hlen

end Tag

namespace Version

/-- Every turn that does not end the loop moves on. -/
theorem parseLoop_yields (s : SlicedString) (n fuel i part : Nat) (r : ParseResult) (hi : i ≤ s.input.length)
    (hfuel : s.input.length < i + fuel) :
    Yields n (parseLoop wyhash s fuel i part r) fun (_, _, i) => i ≤ s.input.length := by
  induction fuel generalizing i part r with
  | zero => omega
  | succ fuel ih =>
    have hsub := s.sub_yields (n := n) hi (Nat.le_refl _)
    unfold parseLoop
    cases hc : s.input[i]? with
    | none => exact hi
    | some c =>
      have hlt := lt_of_getElem? hc
      -- after a number or a wildcard, and a dot if there is one
      have hrun {stop : Nat} (hstop : i + 1 ≤ stop) (hle : stop ≤ s.input.length) (P : Prop) [Decidable P]
          (hP : P → stop < s.input.length) (part : Nat) (r : ParseResult) :
          Yields n (parseLoop wyhash s fuel (if P then stop + 1 else stop) part r) fun (_, _, i) =>
            i ≤ s.input.length := by
        split
        · rename_i h
          exact ih _ _ _ (hP h) (by omega)
        · exact ih _ _ _ hle (by omega)
      have htagged (initialPreCount : Nat) (part : SlicedString) (hpart : part.input.length = s.input.length - i) :
          Yields n (Tag.parseWithPreCount wyhash part initialPreCount) fun r => i + r.len ≤ s.input.length := by
        refine (Tag.parseWithPreCount_yields wyhash part initialPreCount n).mono (Nat.le_refl n) fun r hr => ?_
        omega
      simp only
      split
      · exact hi
      rename_i hspace
      split
      · exact (Nat.sub_le i 1).trans hi
      split
      · have hstop := le_skipWhile isDigit s.input (i + 1)
        have hle : skipWhile isDigit s.input (i + 1) ≤ s.input.length := skipWhile_le hlt
        refine (s.sub_yields (Nat.le_of_succ_le hstop) hle).bind fun digits _ => ?_
        exact hrun hstop hle _ (fun h => lt_of_at? h.1) _ _
      split
      · exact hi
      split
      · split
        · exact hi
        · refine hsub.bind fun tail htail => (htagged 0 tail htail).bind fun r hr => ?_
          show skipWhile isSpace s.input i + r.len ≤ _
          rwa [skipWhile_of_not hc (Bool.eq_false_iff.mpr hspace)]
      split
      · have hstop := le_skipWhile isX s.input (i + 1)
        have hle : skipWhile isX s.input (i + 1) ≤ s.input.length := skipWhile_le hlt
        split
        · exact hrun hstop hle _ lt_of_at? _ _
        · exact hrun hstop hle _ lt_of_at? _ _
      split
      · exact hsub.bind fun tail htail => (htagged 1 tail htail).bind fun _ hr => hr
      · exact hi

theorem skipLead_le (input : List UInt8) : skipLead input ≤ input.length := by
  unfold skipLead
  cases h : input.findIdx? fun c => !(isWhitespace c || isSeparator c) with
  | none => exact Nat.zero_le _
  | some i => exact (List.findIdx?_eq_some_iff_getElem.mp h).1.le

/-- A version is no longer than the input. -/
theorem parse_yields (s : SlicedString) {n : Nat} (hn : s.input.length ≤ n) :
    Yields n (parse wyhash s) fun r => r.len ≤ s.input.length := by
  unfold parse
  split
  · exact Nat.zero_le _
  · have hloop := parseLoop_yields wyhash s n (s.input.length + 1) (skipLead s.input) 0 .empty (skipLead_le _) (by omega)
    refine hloop.bind fun (r, part, i) hi => ?_
    simp only
    split
    · exact hi
    · exact ⟨rfl, by omega⟩

end Version

/-! ### Queries -/

/-- It ends within the input, and after where it started if no version follows. -/
def Lead.Within (lead : Lead) (i len : Nat) : Prop := i ≤ lead.i ∧ lead.i ≤ len ∧ (lead.skipRound = true → i < lead.i)

theorem Lead.within_of_lt {lead : Lead} {i len : Nat} (h : i < lead.i) (h' : lead.i ≤ len) : lead.Within i len :=
  ⟨h.le, h', fun _ => h⟩

variable {input : List UInt8} {i : Nat}

theorem parseLead_within {c : UInt8} (hc : input[i]? = some c) (tag : TokenTag)
    (isOr : Bool) : (parseLead input c i tag isOr).Within i input.length := by
  have hlt := lt_of_getElem? hc
  have hskip (p : UInt8 → Bool) {j : Nat} (hj : i < j) (hle : j ≤ input.length) :
      i < skipWhile p input j ∧ skipWhile p input j ≤ input.length :=
    ⟨hj.trans_le (le_skipWhile p input j), skipWhile_le hle⟩
  have hone (p : UInt8 → Bool) := hskip p (Nat.lt_succ_self i) hlt
  have htwo (p : UInt8 → Bool) {b : UInt8} (hb : input[i + 1]? = some b) :=
    hskip p (Nat.lt_succ_of_lt (Nat.lt_succ_self i)) (lt_of_getElem? hb)
  unfold parseLead
  split
  · split
    · rename_i heq
      exact Lead.within_of_lt (htwo _ heq).1 (htwo _ heq).2
    · exact Lead.within_of_lt (hone _).1 (hone _).2
  split
  · split
    · rename_i heq
      exact Lead.within_of_lt (htwo _ heq).1 (htwo _ heq).2
    · exact Lead.within_of_lt (hone _).1 (hone _).2
  split
  · exact Lead.within_of_lt (hone _).1 (hone _).2
  split
  · simp only
    split
    · rename_i heq
      exact Lead.within_of_lt (htwo _ heq).1 (htwo _ heq).2
    · exact Lead.within_of_lt (hone _).1 (hone _).2
  split
  · exact Lead.within_of_lt (hone _).1 (hone _).2
  split
  · exact ⟨Nat.le_refl i, hlt.le, nofun⟩
  split
  · have hbars := hone (· == 124)
    have hspaces := hskip isSpace hbars.1 hbars.2
    exact Lead.within_of_lt hspaces.1 hspaces.2
  split
  · exact Lead.within_of_lt (hone _).1 (hone _).2
  split
  · exact Lead.within_of_lt (hone _).1 (hone _).2
  · exact Lead.within_of_lt (hone _).1 (hone _).2

theorem suffix_yields (h : i ≤ input.length) (n : Nat) :
    Yields n (suffix input i) fun rest => i + lengthOfLeadingWhitespace rest ≤ input.length := by
  rw [suffix, if_pos h]
  have hlen := (List.takeWhile_prefix isWhitespace (l := input.drop i)).length_le
  rw [List.length_drop] at hlen
  show i + ((input.drop i).takeWhile isWhitespace).length ≤ _
  omega

theorem byteAt_yields (h : i < input.length) (n : Nat) :
    Yields n (byteAt input i) fun _ => True := by
  rw [byteAt, List.getElem?_eq_getElem h]
  trivial

/-- A second version starts within the input. -/
theorem hyphenate_yields (input : List UInt8) (i n : Nat) :
    Yields n (hyphenate input i) fun second => ∀ j ∈ second, i < j ∧ j ≤ input.length := by
  have hnone : Yields n (pure (none : Option Nat)) fun second => ∀ j ∈ second, i < j ∧ j ≤ input.length := nofun
  unfold hyphenate
  split
  · rename_i hat
    refine (suffix_yields (lt_of_at? hat).le n).bind fun rest hrest => ?_
    simp only
    split
    · exact hnone
    · rename_i hdash
      have hlt := lt_of_at? (by simpa using hdash)
      refine (suffix_yields hlt n).bind fun afterDash hafter => ?_
      generalize hj : i + lengthOfLeadingWhitespace rest + 1 + lengthOfLeadingWhitespace afterDash = j at hafter ⊢
      split
      · exact hnone
      · rename_i hne
        have hjlt : j < input.length := Nat.lt_of_le_of_ne hafter hne
        refine (byteAt_yields hjlt n).bind fun c _ => ?_
        have hseparator : j ≤ (if isSeparator c = true then j + 1 else j) ∧
            (if isSeparator c = true then j + 1 else j) ≤ input.length := by
          split <;> omega
        generalize (if isSeparator c = true then j + 1 else j) = k at hseparator ⊢
        split
        · exact hnone
        · refine (suffix_yields hseparator.2 n).bind fun last hlast => ?_
          split
          · exact hnone
          split
          · exact hnone
          · rintro _ ⟨⟩
            exact ⟨by omega, hlast⟩
  · exact hnone

theorem toRange_yields {t : Token} (ht : t.tag ≠ .none) (p : PartialVersion) (n : Nat) :
    Yields n (t.toRange p) fun _ => True := by
  obtain ⟨tag, wildcard⟩ := t
  cases tag with
  | none => exact absurd rfl ht
  | caret => trivial
  | tilda => trivial
  | version => trivial
  | gt => cases wildcard <;> trivial
  | gte => cases wildcard <;> trivial
  | lt => cases wildcard <;> trivial
  | lte => cases wildcard <;> trivial

theorem addComparator_yields (list : Group) {token : Token} (htoken : token.tag ≠ .none) (count : UInt32) (isOr : Bool)
    (r : ParseResult) (n : Nat) : Yields n (addComparator list token count isOr r) fun _ => True := by
  have hrange := toRange_yields htoken r.version n
  unfold addComparator
  split
  · split
    · trivial
    · exact hrange.bind fun _ _ => trivial
  split
  · exact hrange.bind fun _ _ => trivial
  split
  · exact hrange.bind fun _ _ => trivial
  · exact hrange.bind fun _ _ => trivial

/-- A turn moves on. -/
theorem parseTurn_yields (s : SlicedString) (st : ParseState) {c : UInt8} (hc : s.input[st.i]? = some c) {n : Nat}
    (hn : s.input.length ≤ n) : Yields n (parseTurn wyhash s st c) fun st' => st.i < st'.i := by
  obtain ⟨hle, hin, hskip⟩ := parseLead_within hc st.tag st.isOr
  unfold parseTurn
  simp only
  generalize parseLead s.input c st.i st.tag st.isOr = lead at hle hin hskip ⊢
  split
  · rename_i hskipRound
    exact hskip hskipRound
  · have hversion {i : Nat} (hi : i ≤ s.input.length) (part : SlicedString)
        (hpart : part.input.length = s.input.length - i) : Yields n (Version.parse wyhash part) fun r =>
          i + r.len ≤ s.input.length := by
      refine (Version.parse_yields wyhash part (by omega)).mono (Nat.le_refl n) fun r hr => ?_
      omega
    refine (s.sub_yields hin (Nat.le_refl _)).bind fun part hpart => ?_
    refine (hversion hin part hpart).bind fun r _ => ?_
    refine (hyphenate_yields s.input (lead.i + r.len) n).bind fun second hsecond => ?_
    cases second with
    | some i =>
      obtain ⟨hlt, hi⟩ := hsecond i rfl
      refine (s.sub_yields hi (Nat.le_refl _)).bind fun part hpart => ?_
      refine (hversion hi part hpart).bind fun r' _ => ?_
      show st.i < i + r'.len + 1
      omega
    | none =>
      have hnext : st.i < lead.i + r.len + 1 := by omega
      simp only
      split
      · exact hnext
      · rename_i htag
        exact (addComparator_yields _ htag _ _ r n).bind fun _ _ => hnext

theorem parseLoop_yields (s : SlicedString) {n : Nat} (hn : s.input.length ≤ n) (fuel : Nat) (st : ParseState)
    (hfuel : s.input.length - st.i < fuel) : Yields n (parseLoop wyhash s fuel st) fun _ => True := by
  induction fuel generalizing st with
  | zero => omega
  | succ fuel ih =>
    unfold parseLoop
    cases hc : s.input[st.i]? with
    | none => trivial
    | some c =>
      have hlt := lt_of_getElem? hc
      exact (parseTurn_yields wyhash s st hc hn).bind fun st' hnext => ih st' (by omega)

/-- **Reading is total**, as long as the length of the input fits in 32 bits, and what reads a version or a tag ends within
its input. -/
theorem parse_total (s : SlicedString) :
    ((∃ g, parse wyhash s = .ok g) ∨ UInt32.size ≤ s.input.length ∧ parse wyhash s = .error .intCast) ∧
      ((∃ r, Version.parse wyhash s = .ok r ∧ r.len ≤ s.input.length) ∨
        UInt32.size ≤ s.input.length ∧ Version.parse wyhash s = .error .intCast) ∧
      ∀ initialPreCount, ∃ r, Tag.parseWithPreCount wyhash s initialPreCount = .ok r ∧ r.len ≤ s.input.length := by
  have hquery : Yields s.input.length (parse wyhash s) fun _ => True :=
    parseLoop_yields wyhash s (Nat.le_refl _) _ _ (by simp)
  have hversion := Version.parse_yields wyhash s (Nat.le_refl _)
  refine ⟨?_, ?_, fun initialPreCount => ?_⟩
  · rcases hquery.cases with ⟨g, hg, -⟩ | h
    · exact .inl ⟨g, hg⟩
    · exact .inr h
  · exact hversion.cases
  · rcases (Tag.parseWithPreCount_yields wyhash s initialPreCount 0).cases with h | ⟨hsize, -⟩
    · exact h
    · exact absurd hsize (by decide)

end Parse

end Funbun.Semver
