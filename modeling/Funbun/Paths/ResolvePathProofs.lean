import Funbun.Paths.ComponentProofs

/-! The scanner writes the normal form of a path.

What is in the buffer are the components that remain, joined, and the place behind the last `..` that is written is where the
marks end. The scanner is ahead of the buffer by a separator, unless it is right behind a component. -/
namespace Funbun.Paths
open Library Library.Cancelling

section
variable (allowAboveRoot : Bool) (isSeparator : UInt8 → Bool) (path buf : List UInt8)

/-- The scanner is behind the last byte of a component. -/
def BehindComponent (r : Nat) : Prop :=
  endsAt isSeparator path r = true ∧ ∃ c, (path.take r).getLast? = some c ∧ isSeparator c = false

/-- What is in the buffer, behind `k` parents and the components `letters` -/
structure Inv (kept : List (List UInt8)) (k : Nat) (letters : List (List UInt8)) (s : Scan) : Prop where
  r_le : s.r ≤ path.length
  bufI_le : s.bufI ≤ s.r
  slack : s.bufI = 0 ∨ s.bufI < s.r ∨ BehindComponent isSeparator path s.r
  text : s.buf.take s.bufI = [separator].intercalate kept
  cancelled : Cancelled allowAboveRoot dotdot k letters kept
  mark : s.dotdot = ([separator].intercalate (List.replicate k dotdot)).length
  clean : ∀ c ∈ kept, Clean isSeparator c
  length : s.buf.length = buf.length
  untouched : s.buf.drop path.length = buf.drop path.length
  rest : (components isSeparator (path.drop s.r)).foldl (cancelStep allowAboveRoot dotdot) kept =
    cancel allowAboveRoot dotdot (components isSeparator path)

end

section
variable {allowAboveRoot : Bool} {isSeparator : UInt8 → Bool} {path buf : List UInt8} (hslash : isSeparator separator = true)
  (hdot : isSeparator dot = false) (hbuf : path.length ≤ buf.length)

/-! ### Finding the last separator -/

theorem toLastSeparator_eq {buf : List UInt8} {dotdot stop : Nat} (hle : dotdot ≤ stop)
    (hstop : stop = dotdot ∨ ∃ c, buf[stop]? = some c ∧ isSeparator c = true) : ∀ {i : Nat}, stop ≤ i → i < buf.length →
      (∀ j, stop < j → j ≤ i → ∃ c, buf[j]? = some c ∧ isSeparator c = false) →
        toLastSeparator isSeparator buf dotdot i = .ok stop := by
  intro i
  induction i with
  | zero =>
    intro hi _ _
    rw [toLastSeparator, Nat.le_zero.1 hi]
  | succ i ih =>
    intro hi hlength hbetween
    rw [toLastSeparator]
    by_cases hmark : dotdot < i + 1
    · rw [if_pos hmark]
      rcases Nat.lt_or_eq_of_le hi with hlt | rfl
      · obtain ⟨c, hc, hnot⟩ := hbetween (i + 1) hlt (Nat.le_refl _)
        have hread : indexAt buf (i + 1) = .ok c := by
          unfold indexAt
          rw [hc]
        rw [hread]
        exact (if_neg (by rw [hnot]; decide)).trans
          (ih (Nat.le_of_lt_succ hlt) (Nat.lt_of_succ_lt hlength) fun j hj hji => hbetween j hj (Nat.le_succ_of_le hji))
      · rcases hstop with hstop | ⟨c, hc, hsep⟩
        · exact absurd hmark (by omega)
        · have hread : indexAt buf (i + 1) = .ok c := by
            unfold indexAt
            rw [hc]
          rw [hread]
          exact if_pos hsep
    · rw [if_neg hmark]
      have heq : stop = i + 1 := by omega
      rw [heq]

/-! ### The turns -/

variable {kept letters : List (List UInt8)} {k : Nat} {s : Scan}

theorem Inv.length_text (h : Inv allowAboveRoot isSeparator path buf kept k letters s) (hbuf : path.length ≤ buf.length) :
    ([separator].intercalate kept).length = s.bufI := by
  have hle : s.bufI ≤ s.buf.length := by
    rw [h.length]
    exact Nat.le_trans h.bufI_le (Nat.le_trans h.r_le hbuf)
  rw [← h.text, List.length_take, Nat.min_eq_left hle]

/-- At the start of a component, there is room for a separator. -/
theorem Inv.room (h : Inv allowAboveRoot isSeparator path buf kept k letters s) (hr : s.r < path.length)
    (hnot : isSeparator path[s.r] = false) : s.bufI = 0 ∨ s.bufI < s.r := by
  rcases h.slack with hzero | hlt | hbehind
  · exact .inl hzero
  · exact .inr hlt
  · have hends := hbehind.1
    unfold endsAt at hends
    rw [List.getElem?_eq_getElem hr, Option.any_some, hnot, Bool.or_false, decide_eq_true_eq] at hends
    omega

/-- A byte that is passed over -/
theorem Inv.skip (h : Inv allowAboveRoot isSeparator path buf kept k letters s) (hr : s.r < path.length)
    (hcomponents : components isSeparator (path.drop (s.r + 1)) = components isSeparator (path.drop s.r)) :
    Inv allowAboveRoot isSeparator path buf kept k letters { s with r := s.r + 1 } where
  r_le := hr
  bufI_le := Nat.le_succ_of_le h.bufI_le
  slack := .inr (.inl (Nat.lt_succ_of_le h.bufI_le))
  text := h.text
  cancelled := h.cancelled
  mark := h.mark
  clean := h.clean
  length := h.length
  untouched := h.untouched
  rest := by
    have hrest := h.rest
    rw [← hcomponents] at hrest
    exact hrest

theorem head_drop_of_endsAt {i : Nat} (h : endsAt isSeparator path i = true) : ∀ b, (path.drop i).head? = some b → isSeparator b = true := by
  intro b hb
  rw [List.head?_drop] at hb
  unfold endsAt at h
  rw [hb, Option.any_some, Bool.or_eq_true, decide_eq_true_eq] at h
  rcases h with rfl | h
  · rw [List.getElem?_eq_none (Nat.le_refl _)] at hb
    cases hb
  · exact h

/-- What is in the buffer, byte by byte -/
theorem Inv.getElem_buf (h : Inv allowAboveRoot isSeparator path buf kept k letters s) {j : Nat} (hj : j < s.bufI) :
    s.buf[j]? = ([separator].intercalate kept)[j]? := by
  rw [← h.text, List.getElem?_take_of_lt hj]

/-- The last component is removed, with the separator before it. -/
theorem Inv.removeLast {init : List (List UInt8)} {c : List UInt8}
    (h : Inv allowAboveRoot isSeparator path buf kept k (init ++ [c]) s) (hbuf : path.length ≤ buf.length)
    (hslash : isSeparator separator = true) :
    s.dotdot < s.bufI ∧ ∃ stop, toLastSeparator isSeparator s.buf s.dotdot (s.bufI - 1) = .ok stop ∧ stop < s.bufI ∧
      s.buf.take stop = [separator].intercalate (List.replicate k dotdot ++ init) := by
  let before := List.replicate k dotdot ++ init
  let stop := ([separator].intercalate before).length
  have hkept : kept = before ++ [c] := by
    rw [h.cancelled.eq, List.append_assoc]
  have hc : Clean isSeparator c := h.clean c (by rw [hkept]; simp)
  have htext : [separator].intercalate kept = front before ++ c := by
    rw [hkept, intercalate_concat_front]
  have hlength : (front before).length + c.length = s.bufI := by
    rw [← h.length_text hbuf, htext, List.length_append]
  have hpos : 0 < c.length := List.length_pos_iff.2 hc.1
  have hfront : stop ≤ (front before).length := (intercalate_before_front before).length_le
  have hmark : s.dotdot ≤ stop := by
    rw [h.mark]
    exact (intercalate_before (List.replicate k dotdot) init).length_le
  have hbound : s.bufI ≤ s.buf.length := by
    rw [h.length]
    exact Nat.le_trans h.bufI_le (Nat.le_trans h.r_le hbuf)
  have hstop : stop = s.dotdot ∨ ∃ b, s.buf[stop]? = some b ∧ isSeparator b = true := by
    rcases List.eq_nil_or_concat init with hnil | ⟨init', d, hinit⟩
    · left
      rw [h.mark]
      simp only [stop, before, hnil, List.append_nil]
    · right
      have hne : before ≠ [] := by
        simp [before, hinit]
      refine ⟨separator, ?_, hslash⟩
      rw [h.getElem_buf (by omega), htext]
      unfold front
      rw [if_neg hne, List.append_assoc, List.getElem?_append_right (Nat.le_refl _), Nat.sub_self]
      rfl
  have hbetween : ∀ j, stop < j → j ≤ s.bufI - 1 → ∃ b, s.buf[j]? = some b ∧ isSeparator b = false := by
    intro j hj hji
    have hle : (front before).length ≤ j := Nat.le_trans (front_length before) hj
    have hlt : j - (front before).length < c.length := by omega
    refine ⟨_, ?_, hc.2 _ (List.getElem_mem hlt)⟩
    rw [h.getElem_buf (by omega), htext, List.getElem?_append_right hle, List.getElem?_eq_getElem hlt]
  have htake : s.buf.take stop = [separator].intercalate before := by
    have hbefore : [separator].intercalate before <+: s.buf.take s.bufI := by
      rw [h.text, htext]
      exact (intercalate_before_front before).trans (List.prefix_append _ _)
    rw [List.prefix_iff_eq_take.1 (hbefore.trans (List.take_prefix _ _))]
  exact ⟨by omega, stop, toLastSeparator_eq hmark hstop (by omega) (by omega) hbetween, by omega, htake⟩

variable {r : Nat}

/-- The scanner is behind a component that ends here. -/
theorem behindComponent {c rest : List UInt8} (hpath : path.drop r = c ++ rest) (hc : Clean isSeparator c)
    (hends : endsAt isSeparator path (r + c.length) = true) : BehindComponent isSeparator path (r + c.length) := by
  refine ⟨hends, c.getLast hc.1, ?_, hc.2 _ (List.getLast_mem hc.1)⟩
  rw [List.take_add, hpath, List.take_left, List.getLast?_append_of_ne_nil _ hc.1, List.getLast?_eq_getLast_of_ne_nil hc.1]

theorem take_dotdot (h : isDotdotWithType (path.drop r) = true) : path.drop r = dotdot ++ path.drop (r + 2) := by
  unfold isDotdotWithType at h
  rw [decide_eq_true_eq] at h
  rw [← List.drop_drop, dotdot, ← h, List.take_append_drop]

theorem dotdot_clean (hdot : isSeparator dot = false) : Clean isSeparator dotdot := by
  refine ⟨List.cons_ne_nil _ _, fun b hb => ?_⟩
  unfold dotdot at hb
  simp only [List.mem_cons, List.not_mem_nil, or_false, or_self] at hb
  rw [hb, hdot]

theorem components_dotdot (hdot : isSeparator dot = false) (hdotdot : isDotdotWithType (path.drop r) = true)
    (hends : endsAt isSeparator path (r + 2) = true) :
    components isSeparator (path.drop r) = dotdot :: components isSeparator (path.drop (r + 2)) := by
  rw [take_dotdot hdotdot, components_append (dotdot_clean hdot).2 (head_drop_of_endsAt hends), if_pos (by decide)]
  rfl

/-- A `..` that is written behind the others -/
theorem Inv.writeParent (h : Inv allowAboveRoot isSeparator path buf kept k [] s) (hbuf : path.length ≤ buf.length)
    (hdot : isSeparator dot = false) (habove : allowAboveRoot = true) (text : List UInt8) {out : List UInt8}
    (htext : [separator].intercalate kept ++ text = [separator].intercalate (kept ++ [dotdot]))
    (hdotdot : isDotdotWithType (path.drop s.r) = true) (hends : endsAt isSeparator path (s.r + 2) = true)
    (hroom : s.bufI + text.length ≤ s.r + 2) (hle : s.r + 2 ≤ path.length)
    (hout : out.take (s.bufI + text.length) = s.buf.take s.bufI ++ text ∧ out.length = s.buf.length ∧
      ∀ m, s.bufI + text.length ≤ m → out.drop m = s.buf.drop m) :
    Inv allowAboveRoot isSeparator path buf (kept ++ [dotdot]) (k + 1) []
      ⟨s.r + 2, s.bufI + text.length, s.bufI + text.length, out⟩ := by
  have hkept : kept = List.replicate k dotdot := by
    rw [h.cancelled.eq, List.append_nil]
  have hnew : kept ++ [dotdot] = List.replicate (k + 1) dotdot := by
    rw [hkept, List.replicate_succ']
  refine ⟨hle, hroom, .inr (.inr ?_), ?_, ?_, ?_, ?_, hout.2.1.trans h.length, ?_, ?_⟩
  · exact behindComponent (take_dotdot hdotdot) (dotdot_clean hdot) hends
  · rw [hout.1, h.text, htext]
  · exact ⟨by rw [hnew, List.append_nil], List.not_mem_nil, fun hkeep => by rw [habove] at hkeep; cases hkeep⟩
  · rw [← hnew, ← htext, List.length_append, h.length_text hbuf]
  · intro c hc
    rcases List.mem_append.1 hc with hc | hc
    · exact h.clean c hc
    · rw [List.mem_singleton.1 hc]
      exact dotdot_clean hdot
  · rw [hout.2.2 path.length (Nat.le_trans hroom hle), h.untouched]
  · have hrest := h.rest
    rw [components_dotdot hdot hdotdot hends, List.foldl_cons, hkept, cancelStep_mark_marks, if_pos habove] at hrest
    rw [hnew]
    exact hrest

theorem Inv.parentElement (h : Inv allowAboveRoot isSeparator path buf kept k letters s) (hbuf : path.length ≤ buf.length)
    (hslash : isSeparator separator = true) (hdot : isSeparator dot = false) (hroom : s.bufI = 0 ∨ s.bufI < s.r)
    (hdotdot : isDotdotWithType (path.drop s.r) = true) (hends : endsAt isSeparator path (s.r + 2) = true) :
    Returns (parentElement allowAboveRoot isSeparator { s with r := s.r + 2 }) fun s' =>
      s'.r = s.r + 2 ∧ ∃ kept k letters, Inv allowAboveRoot isSeparator path buf kept k letters s' := by
  have hle : s.r + 2 ≤ path.length := by
    have hlength := congrArg List.length (take_dotdot hdotdot)
    have htwo : dotdot.length = 2 := rfl
    rw [List.length_append, List.length_drop, List.length_drop, htwo] at hlength
    omega
  have hbehind := behindComponent (take_dotdot hdotdot) (dotdot_clean hdot) hends
  have hrest := h.rest
  rw [components_dotdot hdot hdotdot hends, List.foldl_cons] at hrest
  have hbound : s.bufI + 3 ≤ s.buf.length ∨ (s.bufI = 0 ∧ 2 ≤ s.buf.length) := by
    rw [h.length]
    omega
  unfold Funbun.Paths.parentElement
  rcases List.eq_nil_or_concat letters with rfl | ⟨init, c, rfl⟩
  · have hkept : kept = List.replicate k dotdot := by
      rw [h.cancelled.eq, List.append_nil]
    have hmark : s.dotdot = s.bufI := by
      rw [h.mark, ← hkept, h.length_text hbuf]
    rw [if_neg (by simp only [hmark]; exact Nat.lt_irrefl _)]
    cases habove : allowAboveRoot with
    | false =>
      rw [if_neg (by decide)]
      refine .ok ⟨rfl, kept, k, [], ?_⟩
      rw [habove] at h hrest
      refine ⟨hle, Nat.le_trans h.bufI_le (Nat.le_add_right ..), .inr (.inr hbehind), h.text, h.cancelled, h.mark, h.clean, h.length,
        h.untouched, ?_⟩
      rw [hkept, cancelStep_mark_marks, if_neg (by decide), ← hkept] at hrest
      exact hrest
    | true =>
      rw [if_pos rfl]
      rw [habove] at h
      by_cases hpos : 0 < s.bufI
      · rw [if_pos hpos]
        have hne : kept ≠ [] := by
          intro hnil
          have hlength := h.length_text hbuf
          rw [hnil] at hlength
          exact absurd hpos (by rw [← hlength]; exact Nat.lt_irrefl 0)
        refine (writeAt_returns (by simp only [List.length_cons, List.length_nil]; omega)).bind ?_
        intro out hout
        refine .ok ⟨rfl, kept ++ [dotdot], k + 1, [], ?_⟩
        refine h.writeParent hbuf hdot rfl [separator, dot, dot] ?_ hdotdot hends ?_ hle hout
        · rw [intercalate_concat hne]
          rfl
        · simp only [List.length_cons, List.length_nil]
          omega
      · rw [if_neg hpos]
        have hzero : s.bufI = 0 := Nat.eq_zero_of_not_pos hpos
        have hnil : kept = [] := by
          by_contra hne
          apply intercalate_ne_nil h.clean hne
          rw [← List.length_eq_zero_iff, h.length_text hbuf, hzero]
        refine (writeAt_returns (by simp only [List.length_cons, List.length_nil]; omega)).bind ?_
        intro out hout
        refine .ok ⟨rfl, kept ++ [dotdot], k + 1, [], ?_⟩
        refine h.writeParent hbuf hdot rfl [dot, dot] ?_ hdotdot hends ?_ hle hout
        · rw [hnil]
          rfl
        · simp only [List.length_cons, List.length_nil]
          omega
  · rw [List.concat_eq_append] at h
    obtain ⟨hlt, stop, hlast, hstop, htake⟩ := h.removeLast hbuf hslash
    rw [if_pos hlt, hlast]
    have hc : c ≠ dotdot := fun hc => h.cancelled.letters (by rw [hc]; simp)
    have hkept : kept = (List.replicate k dotdot ++ init) ++ [c] := by
      rw [h.cancelled.eq, List.append_assoc]
    refine .ok ⟨rfl, List.replicate k dotdot ++ init, k, init, hle, ?_, .inr (.inr hbehind), htake, ?_, h.mark, ?_, h.length,
      h.untouched, ?_⟩
    · have := h.bufI_le
      simp only
      omega
    · exact ⟨rfl, fun hmem => h.cancelled.letters (List.mem_append_left _ hmem), h.cancelled.marks⟩
    · intro d hd
      exact h.clean d (by rw [hkept]; exact List.mem_append_left _ hd)
    · rw [hkept, cancelStep_mark_concat hc] at hrest
      exact hrest

/-! ### Real elements -/

/-- The bytes up to the next separator -/
def elementAt (isSeparator : UInt8 → Bool) (path : List UInt8) (r : Nat) : List UInt8 := (path.drop r).takeWhile fun c => !isSeparator c

theorem elementAt_append (r : Nat) :
    path.drop r = elementAt isSeparator path r ++ path.drop (r + (elementAt isSeparator path r).length) := by
  have hsplit := List.takeWhile_append_dropWhile (p := fun c => !isSeparator c) (l := path.drop r)
  have hdrop : path.drop (r + (elementAt isSeparator path r).length) = (path.drop r).dropWhile fun c => !isSeparator c := by
    rw [← List.drop_drop]
    conv =>
      lhs
      rw [← hsplit]
    exact List.drop_left
  rw [hdrop]
  exact hsplit.symm

theorem elementAt_clean (hr : r < path.length) (hnot : isSeparator path[r] = false) :
    Clean isSeparator (elementAt isSeparator path r) := by
  refine ⟨?_, fun b hb => ?_⟩
  · unfold elementAt
    rw [List.drop_eq_getElem_cons hr, List.takeWhile_cons_of_pos (by rw [hnot]; rfl)]
    exact List.cons_ne_nil _ _
  · have hall := List.all_eq_true.1 List.all_takeWhile b hb
    rwa [Bool.not_eq_true'] at hall

theorem elementAt_le (hr : r < path.length) : r + (elementAt isSeparator path r).length ≤ path.length := by
  have hle := (List.takeWhile_prefix (p := fun c => !isSeparator c) (l := path.drop r)).length_le
  rw [List.length_drop] at hle
  unfold elementAt
  omega

theorem elementAt_ends (hr : r < path.length) :
    endsAt isSeparator path (r + (elementAt isSeparator path r).length) = true := by
  have hle : r + (elementAt isSeparator path r).length ≤ path.length := elementAt_le hr
  rcases Nat.lt_or_eq_of_le hle with hlt | heq
  · have hdrop : (path.drop r).dropWhile (fun c => !isSeparator c) = path.drop (r + (elementAt isSeparator path r).length) :=
      List.append_cancel_left (List.takeWhile_append_dropWhile.trans (elementAt_append r))
    have hhead := List.head?_dropWhile_not (fun c => !isSeparator c) (path.drop r)
    rw [hdrop, List.head?_drop, List.getElem?_eq_getElem hlt] at hhead
    unfold endsAt
    rw [List.getElem?_eq_getElem hlt, Option.any_some, Bool.or_eq_true]
    exact .inr (by simpa using hhead)
  · unfold endsAt
    rw [heq, decide_eq_true rfl, Bool.true_or]

/-- The separator is written where there is something before it. -/
theorem Inv.addSeparator (h : Inv allowAboveRoot isSeparator path buf kept k letters s) (hbuf : path.length ≤ buf.length)
    (hr : s.r < path.length) (hroom : s.bufI = 0 ∨ s.bufI < s.r) : Returns (addSeparator isSeparator s) fun t =>
      t.r = s.r ∧ t.dotdot = s.dotdot ∧ t.bufI = (front kept).length ∧ t.bufI ≤ s.r ∧ t.buf.take t.bufI = front kept ∧
        t.buf.length = s.buf.length ∧ t.buf.drop path.length = s.buf.drop path.length := by
  have htext := h.length_text hbuf
  unfold Funbun.Paths.addSeparator
  by_cases hzero : s.bufI = 0
  · have hnil : kept = [] := by
      by_contra hne
      apply intercalate_ne_nil h.clean hne
      rw [← List.length_eq_zero_iff, htext, hzero]
    rw [if_pos hzero]
    refine .ok ⟨rfl, rfl, ?_, ?_, ?_, rfl, rfl⟩
    · rw [hzero, hnil]
      rfl
    · rw [hzero]
      exact Nat.zero_le _
    · rw [hzero, hnil]
      rfl
  · have hne : kept ≠ [] := by
      intro hnil
      rw [hnil] at htext
      exact hzero htext.symm
    have hfront : front kept = [separator].intercalate kept ++ [separator] := if_neg hne
    have hlt : s.bufI < s.r := hroom.resolve_left hzero
    have hbound : s.bufI < s.buf.length := by
      rw [h.length]
      omega
    have hget := h.getElem_buf (j := s.bufI - 1) (by omega)
    rw [List.getElem?_eq_getElem (by omega)] at hget
    have hlast : isSeparator s.buf[s.bufI - 1] = false := by
      apply getLast_intercalate h.clean
      rw [List.getLast?_eq_getElem?, htext]
      exact hget.symm
    rw [if_neg hzero, indexAt_ok (by omega)]
    refine Returns.bind (.ok rfl) fun c hc => ?_
    subst hc
    rw [if_neg (by rw [hlast]; decide)]
    refine (writeAt_returns (by simp only [List.length_cons, List.length_nil]; omega)).bind fun out hout => ?_
    have htake := hout.1
    rw [h.text, ← hfront] at htake
    refine .ok ⟨rfl, rfl, ?_, hlt, htake, hout.2.1, hout.2.2 path.length ?_⟩
    · rw [hfront, List.length_append, htext]
      rfl
    · simp only [List.length_cons, List.length_nil]
      omega

theorem Inv.realElement (h : Inv allowAboveRoot isSeparator path buf kept k letters s) (hbuf : path.length ≤ buf.length)
    (hr : s.r < path.length) (hnot : isSeparator path[s.r] = false) (hroom : s.bufI = 0 ∨ s.bufI < s.r)
    (hdot : elementAt isSeparator path s.r ≠ [dot]) (hdotdot : elementAt isSeparator path s.r ≠ dotdot) :
    Returns (realElement isSeparator path s) fun s' =>
      s.r < s'.r ∧ ∃ kept k letters, Inv allowAboveRoot isSeparator path buf kept k letters s' := by
  let element := elementAt isSeparator path s.r
  have hclean : Clean isSeparator element := elementAt_clean hr hnot
  have happend : path.drop s.r = element ++ path.drop (s.r + element.length) := elementAt_append s.r
  have hends : endsAt isSeparator path (s.r + element.length) = true := elementAt_ends hr
  have hle : s.r + element.length ≤ path.length := elementAt_le hr
  unfold Funbun.Paths.realElement
  refine (h.addSeparator hbuf hr hroom).bind fun t ht => ?_
  obtain ⟨-, hmark, hlength, htle, htake, hbufLength, huntouched⟩ := ht
  have hroom' : t.bufI + element.length ≤ t.buf.length := by
    rw [hbufLength, h.length]
    omega
  refine (writeAt_returns hroom').bind fun out hout => ?_
  refine .ok ⟨?_, kept ++ [element], k, letters ++ [element], ?_⟩
  · exact Nat.lt_add_of_pos_right (List.length_pos_iff.2 hclean.1)
  refine ⟨hle, Nat.add_le_add_right htle _, .inr (.inr (behindComponent happend hclean hends)), ?_, h.cancelled.letter hdotdot, ?_, ?_, ?_,
    ?_, ?_⟩
  · rw [intercalate_concat_front, ← htake]
    exact hout.1
  · exact hmark.trans h.mark
  · intro c hc
    rcases List.mem_append.1 hc with hc | hc
    · exact h.clean c hc
    · rw [List.mem_singleton.1 hc]
      exact hclean
  · exact hout.2.1.trans (hbufLength.trans h.length)
  · exact (hout.2.2 path.length (Nat.le_trans (Nat.add_le_add_right htle _) hle)).trans (huntouched.trans h.untouched)
  · have hrest := h.rest
    rw [happend, components_append hclean.2 (head_drop_of_endsAt hends), if_pos ⟨hclean.1, hdot⟩, List.singleton_append,
      List.foldl_cons, cancelStep_letter hdotdot] at hrest
    exact hrest

/-! ### The whole scan -/

/-- The invariant, whatever is kept -/
def Good (allowAboveRoot : Bool) (isSeparator : UInt8 → Bool) (path buf : List UInt8) (s : Scan) : Prop :=
  ∃ kept k letters, Inv allowAboveRoot isSeparator path buf kept k letters s

theorem Good.init : Good allowAboveRoot isSeparator path buf ⟨0, 0, 0, buf⟩ :=
  ⟨[], 0, [], Nat.zero_le _, Nat.le_refl _, .inl rfl, rfl, .nil, rfl, fun _ hc => absurd hc List.not_mem_nil, rfl, rfl, rfl⟩

theorem components_dot (hdot : isSeparator dot = false) (hr : r < path.length) (hc : path[r] = dot)
    (hends : endsAt isSeparator path (r + 1) = true) :
    components isSeparator (path.drop (r + 1)) = components isSeparator (path.drop r) := by
  have hclean : ∀ b ∈ [dot], isSeparator b = false := by
    intro b hb
    rw [List.mem_singleton.1 hb, hdot]
  rw [List.drop_eq_getElem_cons hr, hc, ← List.singleton_append, components_append hclean (head_drop_of_endsAt hends),
    if_neg (by decide)]
  rfl

theorem Good.turn (h : Good allowAboveRoot isSeparator path buf s) (hbuf : path.length ≤ buf.length)
    (hslash : isSeparator separator = true) (hdot : isSeparator dot = false) :
    Returns (turn allowAboveRoot isSeparator path s) (Turn.All
      (fun s' => Good allowAboveRoot isSeparator path buf s' ∧ path.length - s'.r < path.length - s.r)
      fun s' => Good allowAboveRoot isSeparator path buf s' ∧ s'.r = path.length) := by
  obtain ⟨kept, k, letters, h⟩ := h
  unfold Funbun.Paths.turn
  by_cases hr : s.r < path.length
  · rw [if_pos hr, indexAt_ok hr]
    refine Returns.bind (.ok rfl) fun c hc => ?_
    subst hc
    by_cases hsep : isSeparator path[s.r] = true
    · rw [if_pos hsep]
      have hcomponents : components isSeparator (path.drop (s.r + 1)) = components isSeparator (path.drop s.r) := by
        rw [List.drop_eq_getElem_cons hr, components_separator hsep]
      exact .ok ⟨⟨kept, k, letters, h.skip hr hcomponents⟩, Nat.sub_succ_lt_self _ _ hr⟩
    rw [if_neg hsep]
    have hnot : isSeparator path[s.r] = false := Bool.eq_false_iff.2 hsep
    have hroom := h.room hr hnot
    by_cases hone : path[s.r] = dot ∧ endsAt isSeparator path (s.r + 1) = true
    · rw [if_pos hone]
      exact .ok ⟨⟨kept, k, letters, h.skip hr (components_dot hdot hr hone.1 hone.2)⟩, Nat.sub_succ_lt_self _ _ hr⟩
    rw [if_neg hone]
    by_cases htwo : isDotdotWithType (path.drop s.r) = true ∧ endsAt isSeparator path (s.r + 2) = true
    · rw [if_pos htwo]
      refine (h.parentElement hbuf hslash hdot hroom htwo.1 htwo.2).bind fun s' hs' => ?_
      refine .ok ⟨hs'.2, ?_⟩
      rw [hs'.1]
      omega
    rw [if_neg htwo]
    have hends : endsAt isSeparator path (s.r + (elementAt isSeparator path s.r).length) = true := elementAt_ends hr
    have happend : path.drop s.r = elementAt isSeparator path s.r ++ _ := elementAt_append s.r
    refine (h.realElement hbuf hr hnot hroom (fun heq => hone ?_) fun heq => htwo ?_).bind fun s' hs' => ?_
    · rw [heq] at hends happend
      rw [List.drop_eq_getElem_cons hr, List.singleton_append, List.cons.injEq] at happend
      exact ⟨happend.1, hends⟩
    · rw [heq] at hends happend
      refine ⟨?_, hends⟩
      rw [happend]
      rfl
    · exact .ok ⟨hs'.2, by omega⟩
  · rw [if_neg hr]
    exact .ok ⟨⟨kept, k, letters, h⟩, Nat.le_antisymm h.r_le (Nat.not_lt.1 hr)⟩

/-- What is in the buffer at the end of the path, and that there is room for a separator that the path ends with -/
structure Scanned (allowAboveRoot : Bool) (isSeparator : UInt8 → Bool) (path buf : List UInt8) (s : Scan) : Prop where
  text : s.buf.take s.bufI = joined allowAboveRoot isSeparator path
  bufI : s.bufI = (joined allowAboveRoot isSeparator path).length
  bufI_le : s.bufI ≤ path.length
  room : path.getLast? = some separator → s.bufI = 0 ∨ s.bufI < path.length
  length : s.buf.length = buf.length
  untouched : s.buf.drop path.length = buf.drop path.length

theorem Good.scanned (h : Good allowAboveRoot isSeparator path buf s) (hbuf : path.length ≤ buf.length)
    (hslash : isSeparator separator = true) (hr : s.r = path.length) : Scanned allowAboveRoot isSeparator path buf s := by
  obtain ⟨kept, k, letters, h⟩ := h
  have hrest := h.rest
  rw [hr, List.drop_length, components_nil, List.foldl_nil] at hrest
  have hjoined : [separator].intercalate kept = joined allowAboveRoot isSeparator path := by
    unfold joined
    rw [hrest]
  refine ⟨h.text.trans hjoined, ?_, hr ▸ h.bufI_le, fun hlast => ?_, h.length, h.untouched⟩
  · rw [← hjoined, h.length_text hbuf]
  · rcases h.slack with hzero | hlt | hbehind
    · exact .inl hzero
    · exact .inr (hr ▸ hlt)
    · obtain ⟨-, c, hc, hnot⟩ := hbehind
      rw [hr, List.take_length, hlast] at hc
      cases hc
      rw [hslash] at hnot
      cases hnot

/-- What the path comes to, with its separator at the end -/
structure Written (out path buf : List UInt8) (s : Scan) : Prop where
  text : s.buf.take s.bufI = out
  bufI_le : s.bufI ≤ path.length
  length : s.buf.length = buf.length
  untouched : s.buf.drop path.length = buf.drop path.length

theorem Scanned.trailingSlash (h : Scanned allowAboveRoot isSeparator path buf s) (hbuf : path.length ≤ buf.length)
    (hslash : isSeparator separator = true) :
    Returns (trailingSlash path s) (Written (canonical allowAboveRoot true isSeparator path) path buf) := by
  have hbound : s.bufI ≤ s.buf.length := by
    rw [h.length]
    exact Nat.le_trans h.bufI_le hbuf
  unfold Funbun.Paths.trailingSlash canonical
  simp only [true_and]
  by_cases hzero : s.bufI = 0
  · have hnil : joined allowAboveRoot isSeparator path = [] := by
      rw [← List.length_eq_zero_iff, ← h.bufI, hzero]
    rw [if_pos hzero, if_neg fun hkeeps => hkeeps.1 hnil]
    exact .ok ⟨h.text, h.bufI_le, h.length, h.untouched⟩
  · have hne : joined allowAboveRoot isSeparator path ≠ [] := by
      rw [← List.length_pos_iff, ← h.bufI]
      exact Nat.pos_of_ne_zero hzero
    have hpos : 0 < path.length := Nat.lt_of_lt_of_le (Nat.pos_of_ne_zero hzero) h.bufI_le
    have hlastPath : path.getLast? = some path[path.length - 1] := by
      rw [List.getLast?_eq_getElem?, List.getElem?_eq_getElem]
    rw [if_neg hzero, indexAt_ok (by omega)]
    refine Returns.bind (.ok rfl) fun c hc => ?_
    subst hc
    by_cases hlast : path[path.length - 1] = separator
    · rw [if_neg (not_not_intro hlast), indexAt_ok (by omega)]
      refine Returns.bind (.ok rfl) fun c hc => ?_
      subst hc
      have hroom : s.bufI < path.length := (h.room (by rw [hlastPath, hlast])).resolve_left hzero
      have hnot : s.buf[s.bufI - 1] ≠ separator := by
        intro heq
        have hsep := @getLast_intercalate isSeparator _ (kept_clean allowAboveRoot path) separator (by
          change (joined allowAboveRoot isSeparator path).getLast? = some separator
          rw [List.getLast?_eq_getElem?, ← h.bufI, ← h.text, List.getElem?_take_of_lt (by omega), List.getElem?_eq_getElem (by omega),
            heq])
        rw [hslash] at hsep
        cases hsep
      have hlength := h.length
      rw [if_neg hnot, if_pos ⟨hne, by rw [hlastPath, hlast]⟩]
      refine (writeAt_returns (by simp only [List.length_cons, List.length_nil]; omega)).bind fun out hout => ?_
      have htake := hout.1
      rw [h.text] at htake
      exact .ok ⟨htake, hroom, hout.2.1.trans h.length, (hout.2.2 path.length hroom).trans h.untouched⟩
    · rw [if_pos hlast, if_neg fun hkeeps => hlast (Option.some.inj (hlastPath.symm.trans hkeeps.2))]
      exact .ok ⟨h.text, h.bufI_le, h.length, h.untouched⟩

end

section
variable (allowAboveRoot preserveTrailingSlash zeroTerminate : Bool) {isSeparator : UInt8 → Bool}
  (hslash : isSeparator separator = true) (hdot : isSeparator dot = false) (path buf : List UInt8)
include hslash hdot

theorem normalizeStringGenericTz_ok (hbuf : path.length + zeroTerminate.toNat ≤ buf.length) : ∃ buf',
    normalizeStringGenericTz allowAboveRoot isSeparator path preserveTrailingSlash zeroTerminate buf =
      .ok (canonical allowAboveRoot preserveTrailingSlash isSeparator path, buf') ∧ buf'.length = buf.length ∧
        buf'.drop (path.length + zeroTerminate.toNat) = buf.drop (path.length + zeroTerminate.toNat) := by
  have hle : path.length ≤ buf.length := Nat.le_trans (Nat.le_add_right ..) hbuf
  have hloop := loop_returns (Good allowAboveRoot isSeparator path buf) (fun s => path.length - s.r)
    (fun s hs => hs.turn hle hslash hdot) Good.init (n := path.length + 1) (Nat.lt_succ_self _)
  have hresult : Returns (normalizeStringGenericTz allowAboveRoot isSeparator path preserveTrailingSlash zeroTerminate buf) fun r =>
      r.1 = canonical allowAboveRoot preserveTrailingSlash isSeparator path ∧ r.2.length = buf.length ∧
        r.2.drop (path.length + zeroTerminate.toNat) = buf.drop (path.length + zeroTerminate.toNat) := by
    unfold normalizeStringGenericTz
    refine hloop.bind fun s hs => ?_
    have hscanned := hs.1.scanned hle hslash hs.2
    have hwritten : Returns (if preserveTrailingSlash then trailingSlash path s else .ok s)
        (Written (canonical allowAboveRoot preserveTrailingSlash isSeparator path) path buf) := by
      cases preserveTrailingSlash with
      | true => exact hscanned.trailingSlash hle hslash
      | false => exact .ok ⟨hscanned.text, hscanned.bufI_le, hscanned.length, hscanned.untouched⟩
    refine hwritten.bind fun t ht => ?_
    cases zeroTerminate with
    | false =>
      exact .ok ⟨ht.text, ht.length, ht.untouched⟩
    | true =>
      have hbuf' : path.length + 1 ≤ buf.length := hbuf
      have hlength := ht.length
      have hbufI := ht.bufI_le
      have hfits : t.bufI + ([0] : List UInt8).length ≤ t.buf.length := by
        rw [List.length_singleton]
        omega
      refine (writeAt_returns hfits).bind fun out hout => ?_
      have htake : out.take t.bufI = t.buf.take t.bufI := by
        have hfront := congrArg (List.take t.bufI) hout.1
        rwa [List.take_take, Nat.min_eq_left (Nat.le_add_right ..), List.take_left' (by rw [List.length_take]; omega)] at hfront
      refine .ok ⟨htake.trans ht.text, hout.2.1.trans hlength, ?_⟩
      have huntouched := congrArg (List.drop 1) ht.untouched
      rw [List.drop_drop, List.drop_drop] at huntouched
      exact (hout.2.2 (path.length + 1) (Nat.add_le_add_right hbufI 1)).trans huntouched
  obtain ⟨r, hr, htext, hrest⟩ := hresult
  exact ⟨r.2, by rw [hr, ← htext], hrest⟩

end

/-- The result is the normal form of the path, which is normal, and which has the parents of every front of the path. -/
theorem normalizeStringGenericTz_canonical (allowAboveRoot preserveTrailingSlash zeroTerminate : Bool) (isSeparator : UInt8 → Bool)
    (hslash : isSeparator separator = true) (hdot : isSeparator dot = false) (path buf : List UInt8)
    (hbuf : path.length + zeroTerminate.toNat ≤ buf.length) :
    (∃ buf', normalizeStringGenericTz allowAboveRoot isSeparator path preserveTrailingSlash zeroTerminate buf =
      .ok (canonical allowAboveRoot preserveTrailingSlash isSeparator path, buf') ∧ buf'.length = buf.length ∧
        buf'.drop (path.length + zeroTerminate.toNat) = buf.drop (path.length + zeroTerminate.toNat)) ∧
      (∀ buf₁, (canonical allowAboveRoot preserveTrailingSlash isSeparator path).length + zeroTerminate.toNat ≤ buf₁.length →
        ∃ buf', normalizeStringGenericTz allowAboveRoot isSeparator (canonical allowAboveRoot preserveTrailingSlash isSeparator path)
          preserveTrailingSlash zeroTerminate buf₁ = .ok (canonical allowAboveRoot preserveTrailingSlash isSeparator path, buf')) ∧
      ∀ before after, components isSeparator path = before ++ after → ∃ k letters,
        cancel allowAboveRoot dotdot before = List.replicate k dotdot ++ letters ∧ dotdot ∉ letters ∧
          List.replicate k dotdot <+: cancel allowAboveRoot dotdot (components isSeparator path) := by
  refine ⟨normalizeStringGenericTz_ok _ _ _ hslash hdot path buf hbuf, fun buf₁ hbuf₁ => ?_, fun before after hsplit => ?_⟩
  · obtain ⟨buf', hok, -⟩ := normalizeStringGenericTz_ok allowAboveRoot preserveTrailingSlash zeroTerminate hslash hdot
      (canonical allowAboveRoot preserveTrailingSlash isSeparator path) buf₁ hbuf₁
    rw [canonical_canonical allowAboveRoot preserveTrailingSlash path hslash] at hok
    exact ⟨buf', hok⟩
  · rw [hsplit]
    exact marks_stay before after

/-- `../a//./b/../`, with a buffer of its own length -/
def climbing : List UInt8 := dotdot ++ [separator, 'a'.toUInt8, separator, separator, dot, separator, 'b'.toUInt8, separator] ++
  dotdot ++ [separator]

theorem normalizeStringGenericTz_canonical_climbing :
    (∃ buf', normalizeStringGenericTz true (· == separator) climbing true false climbing =
      .ok (canonical true true (· == separator) climbing, buf') ∧ buf'.length = climbing.length) ∧
        canonical true true (· == separator) climbing = dotdot ++ [separator, 'a'.toUInt8, separator] := by
  obtain ⟨⟨buf', hok, hlength, -⟩, -⟩ := normalizeStringGenericTz_canonical true true false (· == separator) (by decide) (by decide)
    climbing climbing (Nat.le_refl _)
  exact ⟨⟨buf', hok, hlength⟩, by decide +kernel⟩

end Funbun.Paths
