import Mathlib.Data.List.Nodup

/-! Maps that remember the order their keys came in.

A map is a list of entries without repeated keys. `update` changes the entry of a
key where it stands, or adds one at the end; putting a value, reading a key with a
default and collecting values under a key are all cases of it. -/
namespace Funbun.Library

structure ArrayMap (κ ν : Type) where
  entries : List (κ × ν)
  nodup : (entries.map Prod.fst).Nodup

/-- A set that remembers the order its elements came in. -/
abbrev ArraySet (κ : Type) := ArrayMap κ Unit

namespace ArrayMap
variable {κ ν ω : Type}

def empty : ArrayMap κ ν := ⟨[], List.nodup_nil⟩

def keys (m : ArrayMap κ ν) : List κ := m.entries.map Prod.fst

/-! ### Every entry through a function that may fail -/

def traverseEntries (f : κ → ν → Option ω) : List (κ × ν) → Option (List (κ × ω))
  | [] => some []
  | (k, v) :: entries => do
    let w ← f k v
    let entries ← traverseEntries f entries
    some ((k, w) :: entries)

variable {f : κ → ν → Option ω} {k : κ} {entries : List (κ × ν)} {m : ArrayMap κ ν}

theorem traverseEntries_cons {v : ν} {result : List (κ × ω)} (h : traverseEntries f ((k, v) :: entries) = some result) :
    ∃ w rest, f k v = some w ∧ traverseEntries f entries = some rest ∧ result = (k, w) :: rest := by
  obtain ⟨w, hw, h⟩ := Option.bind_eq_some_iff.mp h
  obtain ⟨rest, hrest, h⟩ := Option.bind_eq_some_iff.mp h
  exact ⟨w, rest, hw, hrest, (Option.some.inj h).symm⟩

theorem keys_traverseEntries :
    ∀ {result : List (κ × ω)}, traverseEntries f entries = some result →
      result.map Prod.fst = entries.map Prod.fst := by
  induction entries with
  | nil =>
    intro result h
    cases h
    rfl
  | cons e entries ih =>
    intro result h
    obtain ⟨w, rest, -, hrest, rfl⟩ := traverseEntries_cons h
    rw [List.map_cons, List.map_cons, ih hrest]

def traverse (f : κ → ν → Option ω) (m : ArrayMap κ ν) : Option (ArrayMap κ ω) :=
  match h : traverseEntries f m.entries with
  | none => none
  | some entries => some ⟨entries, keys_traverseEntries h ▸ m.nodup⟩

theorem entries_traverse {m' : ArrayMap κ ω} (h : m.traverse f = some m') : traverseEntries f m.entries = some m'.entries := by
  rw [traverse] at h
  split at h
  · cases h
  · next hentries =>
    obtain rfl := Option.some.inj h
    exact hentries

theorem mem_traverseEntries :
    ∀ {result : List (κ × ω)}, traverseEntries f entries = some result → ∀ k w,
      (k, w) ∈ result ↔ ∃ v, (k, v) ∈ entries ∧ f k v = some w := by
  induction entries with
  | nil =>
    intro result h k w
    cases h
    simp
  | cons e entries ih =>
    intro result h k w
    obtain ⟨w', rest, hw', hrest, rfl⟩ := traverseEntries_cons h
    rw [List.mem_cons, ih hrest]
    constructor
    · intro h
      obtain heq | ⟨v, hv, hw⟩ := h
      · cases heq
        exact ⟨_, List.mem_cons_self, hw'⟩
      · exact ⟨v, List.mem_cons_of_mem _ hv, hw⟩
    · intro h
      obtain ⟨v, hv, hw⟩ := h
      obtain heq | hv := List.mem_cons.mp hv
      · cases heq
        left
        rw [Option.some.inj (hw'.symm.trans hw)]
      · exact .inr ⟨v, hv, hw⟩

/-! ### Changing the value at a place -/

theorem keys_modify (entries : List (κ × ν)) (j : Nat) (f : ν → ν) :
    (entries.modify j fun e => (e.1, f e.2)).map Prod.fst = entries.map Prod.fst := by
  apply List.ext_getElem?
  intro i
  rw [List.getElem?_map, List.getElem?_modify, List.getElem?_map]
  cases entries[i]? with
  | none => rfl
  | some e => by_cases hji : j = i <;> simp [hji]

def modifyAt (m : ArrayMap κ ν) (j : Nat) (f : ν → ν) : ArrayMap κ ν where
  entries := m.entries.modify j fun e => (e.1, f e.2)
  nodup := keys_modify m.entries j f ▸ m.nodup

@[simp] theorem keys_modifyAt (m : ArrayMap κ ν) (j : Nat) (f : ν → ν) : (m.modifyAt j f).keys = m.keys :=
  keys_modify m.entries j f

/-! ### Reading and updating -/

variable [DecidableEq κ]

def get? (m : ArrayMap κ ν) (k : κ) : Option ν := m.entries.lookup k

def updateEntries (k : κ) (f : Option ν → ν) : List (κ × ν) → List (κ × ν)
  | [] => [(k, f none)]
  | (k', v) :: entries => if k' = k then (k', f (some v)) :: entries else (k', v) :: updateEntries k f entries

theorem keys_updateEntries (k : κ) (f : Option ν → ν) (entries : List (κ × ν)) :
    (updateEntries k f entries).map Prod.fst =
      if k ∈ entries.map Prod.fst then entries.map Prod.fst else entries.map Prod.fst ++ [k] := by
  induction entries with
  | nil => rfl
  | cons e entries ih =>
    obtain ⟨k', v⟩ := e
    by_cases hk : k' = k
    · simp [updateEntries, hk]
    · have hne : k ≠ k' := Ne.symm hk
      simp only [updateEntries, if_neg hk, List.map_cons, ih, List.mem_cons, hne, false_or]
      split <;> rfl

def update (m : ArrayMap κ ν) (k : κ) (f : Option ν → ν) : ArrayMap κ ν where
  entries := updateEntries k f m.entries
  nodup := by
    rw [keys_updateEntries]
    split
    · exact m.nodup
    · next hk => exact List.nodup_append.mpr ⟨m.nodup, List.nodup_singleton k, by
        intro a ha b hb hab
        obtain rfl := List.mem_singleton.mp hb
        exact hk (hab ▸ ha)⟩

def put (m : ArrayMap κ ν) (k : κ) (v : ν) : ArrayMap κ ν := m.update k fun _ => v

/-- The value of a key that is there is left alone. -/
def getOrPut (m : ArrayMap κ ν) (k : κ) (v : ν) : ArrayMap κ ν := m.update k (·.getD v)

def contains (m : ArrayMap κ ν) (k : κ) : Bool := (m.get? k).isSome

theorem lookup_cons_eq (k k' : κ) (v : ν) (entries : List (κ × ν)) :
    ((k', v) :: entries).lookup k = if k = k' then some v else entries.lookup k := by
  rw [List.lookup_cons]
  by_cases hk : k = k'
  · rw [if_pos hk, beq_iff_eq.mpr hk]
  · rw [if_neg hk, beq_false_of_ne hk]

theorem lookup_updateEntries (k k' : κ) (f : Option ν → ν) (entries : List (κ × ν)) :
    (updateEntries k f entries).lookup k' =
      if k' = k then some (f (entries.lookup k)) else entries.lookup k' := by
  induction entries with
  | nil => rw [updateEntries, lookup_cons_eq, List.lookup_nil, List.lookup_nil]
  | cons e entries ih =>
    obtain ⟨k₀, v⟩ := e
    by_cases hk₀ : k₀ = k
    · subst hk₀
      rw [updateEntries, if_pos rfl, lookup_cons_eq, lookup_cons_eq, lookup_cons_eq, if_pos rfl]
      split <;> rfl
    · rw [updateEntries, if_neg hk₀, lookup_cons_eq, ih, lookup_cons_eq, lookup_cons_eq, if_neg (Ne.symm hk₀)]
      by_cases hk : k' = k₀
      · rw [if_pos hk, if_pos hk, if_neg (hk ▸ hk₀)]
      · rw [if_neg hk, if_neg hk]

theorem get?_update (m : ArrayMap κ ν) (k k' : κ) (f : Option ν → ν) :
    (m.update k f).get? k' = if k' = k then some (f (m.get? k)) else m.get? k' :=
  lookup_updateEntries k k' f m.entries

theorem mem_keys_update (m : ArrayMap κ ν) (k k' : κ) (f : Option ν → ν) :
    k' ∈ (m.update k f).keys ↔ k' = k ∨ k' ∈ m.keys := by
  show k' ∈ (updateEntries k f m.entries).map Prod.fst ↔ _
  rw [keys_updateEntries]
  split
  · next hk =>
    constructor
    · exact .inr
    · intro h
      obtain rfl | h := h
      · exact hk
      · exact h
  · rw [List.mem_append, List.mem_singleton, or_comm, keys]

theorem mem_keys_put (m : ArrayMap κ ν) (k k' : κ) (v : ν) :
    k' ∈ (m.put k v).keys ↔ k' = k ∨ k' ∈ m.keys := mem_keys_update ..

theorem get?_eq_some (m : ArrayMap κ ν) {v : ν} : m.get? k = some v ↔ (k, v) ∈ m.entries := by
  obtain ⟨entries, nodup⟩ := m
  show entries.lookup k = some v ↔ (k, v) ∈ entries
  induction entries with
  | nil => simp
  | cons e entries ih =>
    obtain ⟨k', v'⟩ := e
    obtain ⟨hk', nodup⟩ := List.nodup_cons.mp nodup
    rw [lookup_cons_eq, List.mem_cons, Prod.mk.injEq]
    by_cases hk : k = k'
    · have hnot : (k, v) ∉ entries := fun h => hk' (hk ▸ List.mem_map.mpr ⟨_, h, rfl⟩)
      simp [hk, eq_comm, hk ▸ hnot]
    · simp [hk, ih nodup]

theorem mem_keys (m : ArrayMap κ ν) : k ∈ m.keys ↔ ∃ v, m.get? k = some v := by
  simp only [get?_eq_some, keys, List.mem_map, Prod.exists, exists_and_right, exists_eq_right]

theorem contains_iff (m : ArrayMap κ ν) : m.contains k = true ↔ k ∈ m.keys := by
  rw [contains, Option.isSome_iff_exists, mem_keys]

/-- A new key goes to the end. -/
theorem updateEntries_of_not_mem (f : Option ν → ν)
    (h : k ∉ entries.map Prod.fst) : updateEntries k f entries = entries ++ [(k, f none)] := by
  induction entries with
  | nil => rfl
  | cons e entries ih =>
    obtain ⟨k', v⟩ := e
    obtain ⟨hne, h⟩ := not_or.mp (mt List.mem_cons.mpr h)
    rw [updateEntries, if_neg (Ne.symm hne), ih h]
    rfl

theorem entries_foldl_put (items : List (κ × ν)) : ∀ m : ArrayMap κ ν,
    (m.entries ++ items).map Prod.fst |>.Nodup →
      (items.foldl (fun m item => m.put item.1 item.2) m).entries = m.entries ++ items := by
  induction items with
  | nil =>
    intro m _
    rw [List.append_nil, List.foldl_nil]
  | cons item items ih =>
    intro m h
    have hnew : item.1 ∉ m.entries.map Prod.fst := by
      intro hmem
      rw [List.map_append, List.nodup_append] at h
      exact h.2.2 _ hmem _ List.mem_cons_self rfl
    have hput : (m.put item.1 item.2).entries = m.entries ++ [item] := updateEntries_of_not_mem _ hnew
    rw [List.foldl_cons, ih, hput, List.append_assoc, List.singleton_append]
    rw [hput, List.append_assoc, List.singleton_append]
    exact h

theorem get?_traverse {m' : ArrayMap κ ω} (h : m.traverse f = some m') {w : ω} :
    m'.get? k = some w ↔ ∃ v, m.get? k = some v ∧ f k v = some w := by
  simp only [get?_eq_some, mem_traverseEntries (entries_traverse h)]

/-! ### Places -/

/-- A key stays at its place, whatever is put. -/
theorem keys_update_getElem? (m : ArrayMap κ ν) (k : κ) (f : Option ν → ν) {j : Nat} {k' : κ}
    (h : m.keys[j]? = some k') : (m.update k f).keys[j]? = some k' := by
  show ((updateEntries k f m.entries).map Prod.fst)[j]? = some k'
  rw [keys_updateEntries]
  split
  · exact h
  · exact (List.getElem?_append_left (List.getElem?_eq_some_iff.mp h).choose).trans h

theorem keys_idxOf (m : ArrayMap κ ν) (h : k ∈ m.keys) : m.keys[m.keys.idxOf k]? = some k := by
  rw [List.getElem?_eq_getElem (List.idxOf_lt_length_of_mem h), List.getElem_idxOf]

theorem get?_modifyAt (m : ArrayMap κ ν) {j : Nat} (h : m.keys[j]? = some k) (f : ν → ν) (k' : κ) :
    (m.modifyAt j f).get? k' = if k' = k then (m.get? k).map f else m.get? k' := by
  obtain ⟨entries, nodup⟩ := m
  show (entries.modify j fun e => (e.1, f e.2)).lookup k' = if k' = k then (entries.lookup k).map f else entries.lookup k'
  induction entries generalizing j with
  | nil => cases h
  | cons e entries ih =>
    obtain ⟨k₀, v⟩ := e
    obtain ⟨hk₀, nodup⟩ := List.nodup_cons.mp nodup
    cases j with
    | zero =>
      obtain rfl : k₀ = k := Option.some.inj h
      rw [List.modify_zero_cons, lookup_cons_eq, lookup_cons_eq, lookup_cons_eq, if_pos rfl]
      split <;> rfl
    | succ j =>
      have hk : k ≠ k₀ := by
        rintro rfl
        exact hk₀ (List.mem_of_getElem? h)
      rw [List.modify_succ_cons, lookup_cons_eq, lookup_cons_eq, lookup_cons_eq, if_neg hk, ih nodup h]
      by_cases hk' : k' = k₀
      · rw [if_pos hk', if_pos hk', if_neg (hk' ▸ hk.symm)]
      · rw [if_neg hk', if_neg hk']

/-- What a change leaves as it is can be read as before. -/
theorem map_get?_modifyAt (m : ArrayMap κ ν) (j : Nat) {f : ν → ν} {g : ν → ω} (h : ∀ v, g (f v) = g v) (k : κ) :
    ((m.modifyAt j f).get? k).map g = (m.get? k).map g := by
  obtain ⟨entries, nodup⟩ := m
  show ((entries.modify j fun e => (e.1, f e.2)).lookup k).map g = (entries.lookup k).map g
  clear nodup
  induction entries generalizing j with
  | nil => rw [List.modify_nil]
  | cons e entries ih =>
    obtain ⟨k₀, v⟩ := e
    cases j with
    | zero =>
      rw [List.modify_zero_cons, lookup_cons_eq, lookup_cons_eq]
      split
      · exact congrArg some (h v)
      · rfl
    | succ j =>
      rw [List.modify_succ_cons, lookup_cons_eq, lookup_cons_eq]
      split
      · rfl
      · exact ih j

/-- It succeeds if every entry does. -/
theorem traverse_isSome (h : ∀ k v, m.get? k = some v → (f k v).isSome) : ∃ m', m.traverse f = some m' := by
  have hentries : ∀ entries : List (κ × ν), (∀ e ∈ entries, (f e.1 e.2).isSome) →
      (traverseEntries f entries).isSome := by
    intro entries
    induction entries with
    | nil =>
      intro _
      rfl
    | cons e entries ih =>
      intro he
      obtain ⟨w, hw⟩ := Option.isSome_iff_exists.mp (he e List.mem_cons_self)
      obtain ⟨rest, hrest⟩ := Option.isSome_iff_exists.mp (ih fun e' he' => he e' (List.mem_cons_of_mem _ he'))
      simp [traverseEntries, hw, hrest]
  have hsome := hentries m.entries fun e he => h e.1 e.2 (m.get?_eq_some.mpr he)
  rw [traverse]
  split
  · next hnone =>
    rw [hnone] at hsome
    cases hsome
  · exact ⟨_, rfl⟩

/-! ### Taking an entry out -/

/-- The last entry takes the place of the one that is taken. -/
def swapRemoveEntries (entries : List (κ × ν)) (j : Nat) : List (κ × ν) :=
  entries.take j ++ (entries.drop (j + 1)).getLast?.toList ++ (entries.drop (j + 1)).dropLast

omit [DecidableEq κ] in
theorem swapRemoveEntries_perm (entries : List (κ × ν)) (j : Nat) :
    (swapRemoveEntries entries j).Perm (entries.eraseIdx j) := by
  rw [swapRemoveEntries, List.eraseIdx_eq_take_drop_succ, List.append_assoc]
  apply List.Perm.append_left
  generalize entries.drop (j + 1) = rest
  rcases List.eq_nil_or_concat rest with rfl | ⟨front, last, rfl⟩
  · exact .nil
  · rw [List.concat_eq_append, List.getLast?_concat, List.dropLast_concat]
    exact List.perm_append_comm

/-- The last entry takes the place of the one of the key. -/
def swapRemove (m : ArrayMap κ ν) (k : κ) : ArrayMap κ ν where
  entries := swapRemoveEntries m.entries (m.keys.idxOf k)
  nodup := by
    have hperm := (swapRemoveEntries_perm m.entries (m.keys.idxOf k)).map Prod.fst
    exact hperm.nodup_iff.mpr (m.nodup.sublist ((List.eraseIdx_sublist ..).map Prod.fst))

theorem eraseIdx_idxOf (nodup : (entries.map Prod.fst).Nodup) (k : κ) :
    entries.eraseIdx ((entries.map Prod.fst).idxOf k) = entries.filter fun e => decide (e.1 ≠ k) := by
  induction entries with
  | nil => rfl
  | cons e entries ih =>
    obtain ⟨hnot, nodup⟩ := List.nodup_cons.mp nodup
    rw [List.map_cons, List.idxOf_cons]
    by_cases hk : e.1 = k
    · have hall : ∀ e' ∈ entries, decide (e'.1 ≠ k) = true := by
        intro e' he'
        refine decide_eq_true fun heq => hnot ?_
        rw [hk, ← heq]
        exact List.mem_map_of_mem he'
      rw [hk, beq_self_eq_true, cond_true, List.eraseIdx_cons_zero, List.filter_cons_of_neg (by simp [hk]),
        List.filter_eq_self.mpr hall]
    · rw [beq_false_of_ne hk, cond_false, List.eraseIdx_cons_succ, List.filter_cons_of_pos (by simp [hk]), ih nodup]

theorem get?_swapRemove (m : ArrayMap κ ν) (k k' : κ) :
    (m.swapRemove k).get? k' = if k' = k then none else m.get? k' := by
  have hmem (v : ν) : (k', v) ∈ (m.swapRemove k).entries ↔ (k', v) ∈ m.entries.eraseIdx (m.keys.idxOf k) :=
    (swapRemoveEntries_perm ..).mem_iff
  ext v
  rw [get?_eq_some, hmem, keys, eraseIdx_idxOf m.nodup, List.mem_filter]
  by_cases hk : k' = k
  · simp [hk]
  · simp [hk, get?_eq_some]

/-! ### Entries in another order -/

theorem get?_congr_perm {m m' : ArrayMap κ ν} (h : m.entries.Perm m'.entries) (k : κ) : m.get? k = m'.get? k := by
  ext v
  rw [get?_eq_some, get?_eq_some, h.mem_iff]

/-- The entries, found by a list of their keys -/
theorem perm_entries (m : ArrayMap κ ν) {ks : List κ} (hnodup : ks.Nodup) (hks : ∀ k ∈ m.keys, k ∈ ks) :
    (ks.filterMap fun k => (m.get? k).map (k, ·)).Perm m.entries := by
  have hmem (e : κ × ν) : e ∈ (ks.filterMap fun k => (m.get? k).map (k, ·)) ↔ e ∈ m.entries := by
    obtain ⟨k, v⟩ := e
    rw [← get?_eq_some, List.mem_filterMap]
    constructor
    · rintro ⟨k', -, h⟩
      obtain ⟨v', hv', heq⟩ := Option.map_eq_some_iff.mp h
      obtain ⟨rfl, rfl⟩ := Prod.mk.inj heq
      exact hv'
    · intro h
      exact ⟨k, hks k (m.mem_keys.mpr ⟨v, h⟩), by rw [h, Option.map_some]⟩
  refine (List.perm_ext_iff_of_nodup ?_ (List.Nodup.of_map _ m.nodup)).mpr hmem
  refine hnodup.filterMap fun k k' e he he' => ?_
  obtain ⟨v, -, rfl⟩ := Option.map_eq_some_iff.mp he
  obtain ⟨v', -, heq⟩ := Option.map_eq_some_iff.mp he'
  exact (Prod.mk.inj heq).1.symm

end ArrayMap
end Funbun.Library
