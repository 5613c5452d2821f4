import Mathlib.Data.List.Induction
import Funbun.Paths.ResolvePath

/-! The components of a path, and of a normal one. -/
namespace Funbun.Paths
open Library Library.Cancelling

/-! ### Joining -/

theorem intercalate_concat {α : Type} {sep c : List α} : ∀ {pieces : List (List α)}, pieces ≠ [] →
    sep.intercalate (pieces ++ [c]) = sep.intercalate pieces ++ (sep ++ c)
  | [], h => absurd rfl h
  | [piece], _ => by
    rw [List.singleton_append, List.intercalate_cons_cons, List.intercalate_singleton, List.intercalate_singleton, List.append_assoc]
  | piece :: next :: pieces, _ => by
    have hrest : sep.intercalate (next :: pieces ++ [c]) = sep.intercalate (next :: pieces) ++ (sep ++ c) :=
      intercalate_concat (List.cons_ne_nil next pieces)
    rw [List.cons_append, List.cons_append, List.intercalate_cons_cons, ← List.cons_append, hrest, List.intercalate_cons_cons]
    simp only [List.append_assoc]

/-- What is before a component that is joined to others -/
def front (kept : List (List UInt8)) : List UInt8 := if kept = [] then [] else [separator].intercalate kept ++ [separator]

theorem intercalate_concat_front (kept : List (List UInt8)) (c : List UInt8) :
    [separator].intercalate (kept ++ [c]) = front kept ++ c := by
  unfold front
  split
  · rename_i hnil
    rw [hnil, List.nil_append, List.intercalate_singleton, List.nil_append]
  · rename_i hne
    rw [intercalate_concat hne, List.append_assoc]

theorem front_length (kept : List (List UInt8)) : (front kept).length ≤ ([separator].intercalate kept).length + 1 := by
  unfold front
  split
  · exact Nat.zero_le _
  · rw [List.length_append]
    exact Nat.le_refl _

theorem intercalate_before_front (kept : List (List UInt8)) : [separator].intercalate kept <+: front kept := by
  unfold front
  split
  · rename_i hnil
    rw [hnil]
    exact List.prefix_rfl
  · exact List.prefix_append _ _

theorem intercalate_before (a : List (List UInt8)) (b : List (List UInt8)) :
    [separator].intercalate a <+: [separator].intercalate (a ++ b) := by
  induction b using List.reverseRecOn with
  | nil => simp
  | append_singleton b c ih =>
    rw [← List.append_assoc, intercalate_concat_front]
    exact ih.trans ((intercalate_before_front _).trans (List.prefix_append _ _))

section
variable {isSeparator : UInt8 → Bool}

/-- Not empty, and without separators -/
def Clean (isSeparator : UInt8 → Bool) (c : List UInt8) : Prop := c ≠ [] ∧ ∀ b ∈ c, isSeparator b = false

variable {kept : List (List UInt8)} {path c : List UInt8}

theorem intercalate_ne_nil (hclean : ∀ c ∈ kept, Clean isSeparator c) (hne : kept ≠ []) :
    [separator].intercalate kept ≠ [] := by
  obtain ⟨init, c, rfl⟩ := (List.eq_nil_or_concat kept).resolve_left hne
  rw [List.concat_eq_append, intercalate_concat_front]
  exact List.append_ne_nil_of_right_ne_nil _ (hclean c (by simp)).1

/-- The last byte of joined components is one of a component. -/
theorem getLast_intercalate (hclean : ∀ c ∈ kept, Clean isSeparator c) {b : UInt8}
    (hb : ([separator].intercalate kept).getLast? = some b) : isSeparator b = false := by
  rcases List.eq_nil_or_concat kept with rfl | ⟨init, c, rfl⟩
  · cases hb
  · have hc := hclean c (by simp)
    rw [List.concat_eq_append, intercalate_concat_front, List.getLast?_append_of_ne_nil _ hc.1] at hb
    exact hc.2 b (List.mem_of_getLast? hb)

/-! ### Splitting -/

theorem splitOnP_intercalate (hslash : isSeparator separator = true) : ∀ {kept : List (List UInt8)},
    (∀ c ∈ kept, Clean isSeparator c) → kept ≠ [] → ([separator].intercalate kept).splitOnP isSeparator = kept
  | [], _, h => absurd rfl h
  | [c], hclean, _ => by
    rw [List.intercalate_singleton, List.splitOnP_eq_singleton (hclean c (List.mem_singleton_self c)).2]
  | c :: next :: kept, hclean, _ => by
    have hrest := splitOnP_intercalate hslash (fun c' hmem => hclean c' (List.mem_cons_of_mem c hmem)) (List.cons_ne_nil next kept)
    rw [List.intercalate_cons_cons, List.append_assoc, List.singleton_append,
      List.splitOnP_append_cons_of_forall_mem (hclean c List.mem_cons_self).2 _ hslash, hrest]

theorem splitOnP_clean (h : c ∈ path.splitOnP isSeparator) : ∀ b ∈ c, isSeparator b = false := by
  induction path generalizing c with
  | nil =>
    rw [List.splitOnP_nil, List.mem_singleton] at h
    subst h
    exact fun b hb => absurd hb List.not_mem_nil
  | cons x path ih =>
    rw [List.splitOnP_cons_eq_if_modifyHead] at h
    split at h
    · rcases List.mem_cons.1 h with rfl | h
      · exact fun b hb => absurd hb List.not_mem_nil
      · exact ih h
    · rename_i hx
      obtain ⟨first, rest, hsplit⟩ := List.exists_cons_of_ne_nil (List.splitOnP_ne_nil isSeparator path)
      rw [hsplit, List.modifyHead_cons] at h
      rcases List.mem_cons.1 h with rfl | h
      · intro b hb
        rcases List.mem_cons.1 hb with rfl | hb
        · exact Bool.eq_false_iff.2 hx
        · exact ih (hsplit ▸ List.mem_cons_self) b hb
      · exact ih (hsplit ▸ List.mem_cons_of_mem first h)

theorem components_clean (h : c ∈ components isSeparator path) : Clean isSeparator c := by
  unfold components at h
  rw [List.mem_filter, decide_eq_true_eq] at h
  exact ⟨h.2.1, splitOnP_clean h.1⟩

theorem components_ne_dot (h : c ∈ components isSeparator path) : c ≠ [dot] := by
  unfold components at h
  rw [List.mem_filter, decide_eq_true_eq] at h
  exact h.2.2

theorem components_nil : components isSeparator [] = [] := rfl

theorem components_separator {b : UInt8} (hb : isSeparator b = true) :
    components isSeparator (b :: path) = components isSeparator path := by
  unfold components
  rw [List.splitOnP_cons_eq_if_modifyHead, if_pos hb]
  rfl

/-- A component up to a separator or the end -/
theorem components_append {c rest : List UInt8} (hc : ∀ b ∈ c, isSeparator b = false)
    (hrest : ∀ b, rest.head? = some b → isSeparator b = true) :
    components isSeparator (c ++ rest) = (if c ≠ [] ∧ c ≠ [dot] then [c] else []) ++ components isSeparator rest := by
  cases rest with
  | nil =>
    rw [List.append_nil, components_nil, List.append_nil]
    unfold components
    rw [List.splitOnP_eq_singleton hc]
    by_cases hreal : c ≠ [] ∧ c ≠ [dot]
    · simp [hreal]
    · rw [if_neg hreal]
      simpa using hreal
  | cons b rest =>
    have hb := hrest b rfl
    rw [components_separator hb]
    unfold components
    rw [List.splitOnP_append_cons_of_forall_mem hc b hb, List.filter_cons]
    by_cases hreal : c ≠ [] ∧ c ≠ [dot]
    · rw [if_pos hreal, if_pos (decide_eq_true hreal)]
      rfl
    · rw [if_neg hreal, if_neg (by simpa using hreal)]
      rfl

/-! ### Normal paths -/

theorem components_intercalate (hslash : isSeparator separator = true)
    (hclean : ∀ c ∈ kept, Clean isSeparator c) (hdot : ∀ c ∈ kept, c ≠ [dot]) :
    components isSeparator ([separator].intercalate kept) = kept := by
  by_cases hne : kept = []
  · subst hne
    rfl
  · unfold components
    rw [splitOnP_intercalate hslash hclean hne, List.filter_eq_self]
    exact fun c hc => decide_eq_true ⟨(hclean c hc).1, hdot c hc⟩

theorem components_concat_separator (hslash : isSeparator separator = true) (path : List UInt8) :
    components isSeparator (path ++ [separator]) = components isSeparator path := by
  unfold components
  rw [List.splitOnP_append_cons _ _ hslash, List.splitOnP_nil, List.filter_append]
  exact List.append_nil _

end

section
variable (allowAboveRoot preserveTrailingSlash : Bool) {isSeparator : UInt8 → Bool} (path : List UInt8)

theorem kept_clean : ∀ c ∈ cancel allowAboveRoot dotdot (components isSeparator path), Clean isSeparator c :=
  fun _ hc => components_clean (mem_of_mem_cancel hc)

theorem components_joined (hslash : isSeparator separator = true) : components isSeparator (joined allowAboveRoot isSeparator path) =
    cancel allowAboveRoot dotdot (components isSeparator path) :=
  components_intercalate hslash (kept_clean allowAboveRoot path) fun _ hc => components_ne_dot (mem_of_mem_cancel hc)

theorem components_canonical (hslash : isSeparator separator = true) :
    components isSeparator (canonical allowAboveRoot preserveTrailingSlash isSeparator path) =
      cancel allowAboveRoot dotdot (components isSeparator path) := by
  unfold canonical
  simp only
  split
  · rw [components_concat_separator hslash, components_joined allowAboveRoot path hslash]
  · exact components_joined allowAboveRoot path hslash

/-- A path that is normal stays as it is. -/
theorem canonical_canonical (hslash : isSeparator separator = true) :
    canonical allowAboveRoot preserveTrailingSlash isSeparator (canonical allowAboveRoot preserveTrailingSlash isSeparator path) =
      canonical allowAboveRoot preserveTrailingSlash isSeparator path := by
  have hjoined : joined allowAboveRoot isSeparator (canonical allowAboveRoot preserveTrailingSlash isSeparator path) =
      joined allowAboveRoot isSeparator path := by
    unfold joined
    rw [components_canonical allowAboveRoot preserveTrailingSlash path hslash, cancel_cancel]
  by_cases hkeeps : preserveTrailingSlash = true ∧ joined allowAboveRoot isSeparator path ≠ [] ∧ path.getLast? = some separator
  · have heq : canonical allowAboveRoot preserveTrailingSlash isSeparator path = joined allowAboveRoot isSeparator path ++ [separator] :=
      if_pos hkeeps
    rw [heq] at hjoined ⊢
    unfold canonical
    simp only [hjoined]
    rw [if_pos ⟨hkeeps.1, hkeeps.2.1, by simp⟩]
  · have heq : canonical allowAboveRoot preserveTrailingSlash isSeparator path = joined allowAboveRoot isSeparator path :=
      if_neg hkeeps
    rw [heq] at hjoined ⊢
    unfold canonical
    simp only [hjoined]
    refine if_neg fun hkeeps => ?_
    have hlast := getLast_intercalate (kept_clean allowAboveRoot path) hkeeps.2.2
    rw [hslash] at hlast
    cases hlast

end

end Funbun.Paths
