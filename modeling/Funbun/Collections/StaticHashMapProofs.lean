import Funbun.Collections.StaticHashMap

/-! The hash map is a finite map: its table is one by linear probing, sorted by the hashes. -/
namespace Funbun.Collections.StaticHashMap
open Library.Probing (Placed placed_append spread floorAfter passes)

variable {K V : Type}

/-- The slot that an entry is: free, or of a hash. -/
def Entry.slot (entry : Entry K V) : Option Nat := if entry.isEmpty then none else some entry.hash

theorem Entry.slot_of_full {entry : Entry K V} (h : entry.isEmpty = false) : entry.slot = some entry.hash := by
  rw [Entry.slot, h]
  rfl

theorem Entry.slot_of_empty {entry : Entry K V} (h : entry.isEmpty = true) : entry.slot = none := by
  rw [Entry.slot, h]
  rfl

variable {hash : Nat} {entries : List (Entry K V)}

theorem Entry.slot_eq_some {entry : Entry K V} :
    entry.slot = some hash ↔ entry.isEmpty = false ∧ entry.hash = hash := by
  cases h : entry.isEmpty with
  | true => simp [Entry.slot_of_empty h]
  | false => simp [Entry.slot_of_full h]

theorem map_slot_of_full (h : ∀ entry ∈ entries, entry.isEmpty = false) :
    entries.map Entry.slot = (entries.map (·.hash)).map some := by
  rw [List.map_map]
  exact List.map_congr_left fun entry hentry => Entry.slot_of_full (h entry hentry)

/-- The hashes of the entries that are not empty, in the order of the table. -/
def hashes (entries : List (Entry K V)) : List Nat := (entries.map Entry.slot).reduceOption

theorem mem_hashes :
    hash ∈ hashes entries ↔ ∃ entry ∈ entries, entry.isEmpty = false ∧ entry.hash = hash := by
  rw [hashes, List.reduceOption_mem_iff, List.mem_map]
  simp only [Entry.slot_eq_some]

theorem hashes_append (entries rest : List (Entry K V)) : hashes (entries ++ rest) = hashes entries ++ hashes rest := by
  rw [hashes, List.map_append, List.reduceOption_append]
  rfl

theorem hashes_cons_full {entry : Entry K V} (h : entry.isEmpty = false) (entries : List (Entry K V)) :
    hashes (entry :: entries) = entry.hash :: hashes entries := by
  rw [hashes, List.map_cons, Entry.slot_of_full h, List.reduceOption_cons_of_some]
  rfl

theorem hashes_cons_empty {entry : Entry K V} (h : entry.isEmpty = true) (entries : List (Entry K V)) :
    hashes (entry :: entries) = hashes entries := by
  rw [hashes, List.map_cons, Entry.slot_of_empty h, List.reduceOption_cons_of_none]
  rfl

theorem full_of_lt {entry : Entry K V} (h : entry.hash < hash) (hhash : hash < emptyHash) :
    entry.isEmpty = false := by
  rw [Entry.isEmpty, beq_eq_false_iff_ne]
  omega

theorem lt_of_home_lt {a b shift : Nat} (h : a >>> shift < b >>> shift) : a < b := by
  rw [Nat.shiftRight_eq_div_pow, Nat.shiftRight_eq_div_pow] at h
  exact lt_of_not_ge fun hle => absurd (Nat.div_le_div_right hle) (Nat.not_le.mpr h)

/-- The hashes of the keys in use tell them apart, and none is the mark of a slot that is empty. -/
structure Hashes (ctxHash : K → Nat) (used : K → Prop) : Prop where
  injective : ∀ {k k'}, used k → used k' → ctxHash k = ctxHash k' → k = k'
  lt : ∀ {k}, used k → ctxHash k < emptyHash

namespace HashMap

/-! ### The loops -/

variable {hash i : Nat} {key : K} {slots : List (Entry K V)}

theorem mem_of_stop {map : HashMap K V} {entry : Entry K V} (h : map.stop hash = some entry) :
    entry ∈ map.entries ∧ hash ≤ entry.hash := by
  have hle : decide (entry.hash ≥ hash) = true := by
    rw [stop] at h
    have hsome := List.find?_some h
    exact hsome
  exact ⟨List.mem_of_mem_drop (List.mem_of_find?_eq_some h), of_decide_eq_true hle⟩

theorem getOrPutLoop_skip [DecidableEq K] {it : Entry K V} {insertedAt : Option Nat} {skipped : List (Entry K V)}
    (hskipped : ∀ e ∈ skipped, e.hash < it.hash) (slots : List (Entry K V)) :
    getOrPutLoop key it insertedAt i (skipped ++ slots) =
      (getOrPutLoop key it insertedAt (i + skipped.length) slots).map fun r => (r.1, skipped ++ r.2) := by
  refine passes (fun i e he slots => ?_) i slots
  rw [getOrPutLoop, if_neg (Nat.not_le.2 (hskipped e he))]

/-- A key that is not in the table goes before the first entry of a greater hash, and the entries there move up
to the first slot that is empty. -/
theorem getOrPutLoop_miss [DecidableEq K] {it : Entry K V} {insertedAt : Option Nat}
    {r : GetOrPutResult × List (Entry K V)} (hsorted : (hashes slots).Pairwise (· < ·)) (hkeys : ∀ e ∈ slots, e.key ≠ key)
    (hne : it.hash ∉ hashes slots) (hlt : ∀ e ∈ slots, e.isEmpty = false → e.hash < emptyHash)
    (h : getOrPutLoop key it insertedAt i slots = some r) :
    ∃ skipped moved free after, slots = skipped ++ (moved ++ free :: after) ∧
      (∀ e ∈ skipped, e.hash < it.hash) ∧ (∀ e ∈ moved, e.isEmpty = false ∧ it.hash < e.hash) ∧ free.isEmpty = true ∧
      r = (⟨false, insertedAt.getD (i + skipped.length)⟩, skipped ++ it :: (moved ++ after)) := by
  induction slots generalizing it insertedAt i r with
  | nil => cases h
  | cons e slots ih =>
    have hkeys' : ∀ e ∈ slots, e.key ≠ key := fun e he => hkeys e (List.mem_cons_of_mem _ he)
    have hlt' : ∀ e ∈ slots, e.isEmpty = false → e.hash < emptyHash := fun e he => hlt e (List.mem_cons_of_mem _ he)
    rw [getOrPutLoop] at h
    split at h
    · rename_i hge
      rw [if_neg (hkeys e List.mem_cons_self)] at h
      cases hempty : e.isEmpty with
      | true =>
        rw [hempty, if_pos rfl, Option.some.injEq] at h
        exact ⟨[], [], e, slots, rfl, List.forall_mem_nil _, List.forall_mem_nil _, hempty, h.symm⟩
      | false =>
        rw [hempty, if_neg (by decide), Option.map_eq_some_iff] at h
        obtain ⟨r', hrest, hr⟩ := h
        rw [hashes_cons_full hempty, List.pairwise_cons] at hsorted
        rw [hashes_cons_full hempty, List.mem_cons, not_or] at hne
        have hgt : it.hash < e.hash := by omega
        have hnotMem : e.hash ∉ hashes slots := fun hmem => Nat.lt_irrefl _ (hsorted.1 _ hmem)
        obtain ⟨skipped, moved, free, after, hslots, hskipped, hmoved, hfree, hr'⟩ := ih hsorted.2 hkeys' hnotMem hlt' hrest
        -- nothing is skipped any more: the hashes go up
        have hnil : skipped = [] := by
          cases skipped with
          | nil => rfl
          | cons e' skipped =>
            have hless := hskipped e' List.mem_cons_self
            have hfull := full_of_lt hless (hlt e List.mem_cons_self hempty)
            have hmem : e'.hash ∈ hashes slots := mem_hashes.mpr ⟨e', by rw [hslots]; simp, hfull, rfl⟩
            exact absurd (hsorted.1 _ hmem) (Nat.not_lt.mpr (Nat.le_of_lt hless))
        subst hnil
        refine ⟨[], e :: moved, free, after, by rw [hslots]; rfl, List.forall_mem_nil _, ?_, hfree, ?_⟩
        · intro e' he'
          rcases List.mem_cons.mp he' with rfl | he'
          · exact ⟨hempty, hgt⟩
          · exact ⟨(hmoved e' he').1, Nat.lt_trans hgt (hmoved e' he').2⟩
        · rw [← hr, hr']
          rfl
    · rename_i hnot
      have hless : e.hash < it.hash := by omega
      rw [Option.map_eq_some_iff] at h
      obtain ⟨r', hrest, hr⟩ := h
      have hsub : ∀ hash, hash ∈ hashes slots → hash ∈ hashes (e :: slots) := by
        intro hash hmem
        obtain ⟨e', he', hrest⟩ := mem_hashes.mp hmem
        exact mem_hashes.mpr ⟨e', List.mem_cons_of_mem _ he', hrest⟩
      have hsorted' : (hashes slots).Pairwise (· < ·) := by
        have happend := hashes_append [e] slots
        rw [List.singleton_append] at happend
        rw [happend, List.pairwise_append] at hsorted
        exact hsorted.2.1
      obtain ⟨skipped, moved, free, after, hslots, hskipped, hmoved, hfree, hr'⟩ :=
        ih hsorted' hkeys' (fun hmem => hne (hsub _ hmem)) hlt' hrest
      refine ⟨e :: skipped, moved, free, after, by rw [hslots]; rfl, ?_, hmoved, hfree, ?_⟩
      · intro e' he'
        rcases List.mem_cons.mp he' with rfl | he'
        · exact hless
        · exact hskipped e' he'
      · have hi : i + (e :: skipped).length = i + 1 + skipped.length := by
          rw [List.length_cons]
          omega
        rw [← hr, hr', hi]
        rfl

theorem modify_append (before after : List (Entry K V)) (entry : Entry K V) (f : Entry K V → Entry K V) :
    (before ++ entry :: after).modify before.length f = before ++ f entry :: after := by
  induction before with
  | nil => rfl
  | cons e before ih =>
    rw [List.cons_append, List.length_cons, List.modify_succ_cons, ih]
    rfl

theorem backShift_some [Inhabited K] [Inhabited V] {shift i : Nat} {slots r : List (Entry K V)}
    (h : backShift shift i slots = some r) : ∃ moved next after, slots = moved ++ next :: after ∧
      (∀ e ∈ moved, e.isEmpty = false) ∧ (∀ n e, moved[n]? = some e → e.hash >>> shift ≤ i + n) ∧
      (next.isEmpty = true ∨ i + moved.length < next.hash >>> shift) ∧ r = moved ++ Entry.empty :: next :: after := by
  induction slots generalizing i r with
  | nil => cases h
  | cons e slots ih =>
    rw [backShift] at h
    split at h
    · rename_i hstop
      rw [Option.some.injEq] at h
      refine ⟨[], e, slots, rfl, List.forall_mem_nil _, ?_, hstop.symm, h.symm⟩
      intro n e he
      cases he
    · rename_i hgo
      rw [not_or, Nat.not_lt, Bool.not_eq_true] at hgo
      rw [Option.map_eq_some_iff] at h
      obtain ⟨r', hrest, hr⟩ := h
      obtain ⟨moved, next, after, hslots, hfull, hhomes, hstop, hr'⟩ := ih hrest
      refine ⟨e :: moved, next, after, by rw [hslots]; rfl, ?_, ?_, ?_, by rw [← hr, hr']; rfl⟩
      · intro e' he'
        rcases List.mem_cons.mp he' with rfl | he'
        · exact hgo.2
        · exact hfull e' he'
      · intro n e' he'
        cases n with
        | zero =>
          rw [List.getElem?_cons_zero, Option.some.injEq] at he'
          rw [← he']
          exact hgo.1
        | succ n =>
          have hle := hhomes n e' he'
          omega
      · rw [List.length_cons]
        rcases hstop with hempty | hlt
        · exact Or.inl hempty
        · exact Or.inr (by omega)

theorem deleteLoop_skip [DecidableEq K] [Inhabited K] [Inhabited V] {shift hash i : Nat}
    {skipped : List (Entry K V)} (hskipped : ∀ e ∈ skipped, e.hash < hash) (slots : List (Entry K V)) :
    deleteLoop shift hash key i (skipped ++ slots) =
      (deleteLoop shift hash key (i + skipped.length) slots).map fun r => (r.1, skipped ++ r.2) := by
  refine passes (fun i e he slots => ?_) i slots
  rw [deleteLoop, if_neg (Nat.not_le.2 (hskipped e he))]

theorem deleteLoop_miss [DecidableEq K] [Inhabited K] [Inhabited V]
    (shift i : Nat) (h : ∀ e, slots.find? (fun e => e.hash ≥ hash) = some e → e.key ≠ key) :
    deleteLoop shift hash key i slots = none ∨ ∃ slots', deleteLoop shift hash key i slots = some (none, slots') := by
  induction slots generalizing i with
  | nil => exact Or.inl rfl
  | cons e slots ih =>
    rw [deleteLoop]
    by_cases hge : e.hash ≥ hash
    · rw [if_pos hge, if_pos (h e (List.find?_cons_of_pos (decide_eq_true hge)))]
      exact Or.inr ⟨_, rfl⟩
    · rw [List.find?_cons_of_neg (by simpa using hge)] at h
      rw [if_neg hge]
      rcases ih (i + 1) h with hnone | ⟨slots', hsome⟩
      · exact Or.inl (by rw [hnone]; rfl)
      · exact Or.inr ⟨_, by rw [hsome]; rfl⟩

/-- The map stands for a finite map. -/
structure Represents [Inhabited K] [DecidableEq K] (ctxHash : K → Nat) (used : K → Prop) (map : HashMap K V)
    (M : Finmap fun _ : K => V) : Prop where
  shift : 1 ≤ map.shift ∧ map.shift ≤ 63
  size : map.entries.length = capacity map.shift + computeOverflow (capacity map.shift) map.shift
  placed : Placed (· >>> map.shift) 0 0 (map.entries.map Entry.slot)
  sorted : (hashes map.entries).Pairwise (· < ·)
  empty : ∀ entry ∈ map.entries, entry.isEmpty = true → entry.key = default
  keyed : ∀ entry ∈ map.entries, entry.isEmpty = false → entry.hash = ctxHash entry.key ∧ used entry.key
  len : map.len = (hashes map.entries).length
  contents : ∀ key value, M.lookup key = some value ↔
    ∃ entry ∈ map.entries, entry.isEmpty = false ∧ entry.key = key ∧ entry.value = value

section
variable [Inhabited K] [DecidableEq K] {ctxHash : K → Nat} {used : K → Prop} {map : HashMap K V}
  {M : Finmap fun _ : K => V}

/-- An entry of the table, what is before it and what is behind it. -/
theorem Represents.split (h : map.Represents ctxHash used M) {entry : Entry K V} (hmem : entry ∈ map.entries)
    (hfull : entry.isEmpty = false) : ∃ before after, map.entries = before ++ entry :: after ∧
      entry.hash >>> map.shift ≤ before.length ∧
      (∀ e ∈ before.drop (entry.hash >>> map.shift), e.isEmpty = false ∧ e.hash < entry.hash) := by
  obtain ⟨before, after, hsplit⟩ := List.append_of_mem hmem
  have hget : (map.entries.map Entry.slot)[before.length]? = some (some entry.hash) := by
    rw [hsplit, List.getElem?_map, List.getElem?_append_right (Nat.le_refl _), Nat.sub_self, List.getElem?_cons_zero,
      Option.map_some, Entry.slot_of_full hfull]
  obtain ⟨hhome, hbetween⟩ := h.placed.get hget
  rw [Nat.zero_add] at hhome
  refine ⟨before, after, hsplit, hhome, fun e he => ?_⟩
  have hsorted := h.sorted
  rw [hsplit, hashes_append, hashes_cons_full hfull, List.pairwise_append] at hsorted
  obtain ⟨i, hi, hie⟩ := List.getElem_of_mem he
  rw [List.length_drop] at hi
  rw [List.getElem_drop] at hie
  obtain ⟨c, hc⟩ := hbetween (entry.hash >>> map.shift + i) (by omega) (by omega)
  have hlt : entry.hash >>> map.shift + i < before.length := by omega
  rw [hsplit, List.getElem?_map, List.getElem?_append_left hlt, List.getElem?_eq_getElem hlt, hie, Option.map_some,
    Option.some.injEq, Entry.slot_eq_some] at hc
  refine ⟨hc.1, hsorted.2.2 e.hash (mem_hashes.mpr ⟨e, List.mem_of_mem_drop he, hc.1, rfl⟩) entry.hash List.mem_cons_self⟩

/-! ### Finding -/

/-- The probe for a hash that is in the table stops at its entry. -/
theorem Represents.slotsFrom_hit (h : map.Represents ctxHash used M) {entry : Entry K V} (hmem : entry ∈ map.entries)
    (hfull : entry.isEmpty = false) : ∃ before skipped after, map.entries = before ++ (skipped ++ entry :: after) ∧
      before.length = entry.hash >>> map.shift ∧ map.slotsFrom entry.hash = skipped ++ entry :: after ∧
      ∀ e ∈ skipped, e.isEmpty = false ∧ e.hash < entry.hash := by
  obtain ⟨before, after, hsplit, hhome, hskipped⟩ := h.split hmem hfull
  have hcut : before.take (entry.hash >>> map.shift) ++ before.drop (entry.hash >>> map.shift) = before :=
    List.take_append_drop _ _
  refine ⟨before.take (entry.hash >>> map.shift), before.drop (entry.hash >>> map.shift), after, ?_, ?_, ?_, hskipped⟩
  · rw [← List.append_assoc, hcut, hsplit]
  · exact List.length_take_of_le hhome
  · rw [slotsFrom, hsplit, List.drop_append_of_le_length hhome]

theorem Represents.stop_hit (h : map.Represents ctxHash used M) {entry : Entry K V} (hmem : entry ∈ map.entries)
    (hfull : entry.isEmpty = false) : map.stop entry.hash = some entry := by
  obtain ⟨before, skipped, after, _, _, hslots, hskipped⟩ := h.slotsFrom_hit hmem hfull
  have hnone : skipped.find? (fun e => decide (e.hash ≥ entry.hash)) = none := by
    rw [List.find?_eq_none]
    intro e he
    have hlt := (hskipped e he).2
    simp only [decide_eq_true_eq]
    omega
  rw [stop, hslots, List.find?_append, hnone, Option.none_or, List.find?_cons_of_pos]
  exact decide_eq_true (Nat.le_refl _)

/-- The probe for a key stops where the key may be told from the entry: at one that is not empty, or that is
empty while the key is not the default. -/
def Tells (ctxHash : K → Nat) (map : HashMap K V) (key : K) : Prop :=
  key = default → ∀ entry, map.stop (ctxHash key) = some entry → entry.isEmpty = false

variable {key : K}

theorem Represents.stop_miss (h : map.Represents ctxHash used M) (hmiss : M.lookup key = none)
    (htells : map.Tells ctxHash key) {entry : Entry K V} (hstop : map.stop (ctxHash key) = some entry) :
    entry.key ≠ key := by
  intro hkey
  have hmem := (mem_of_stop hstop).1
  cases hempty : entry.isEmpty with
  | true =>
    have hdefault := h.empty entry hmem hempty
    have hfull := htells (hkey.symm.trans hdefault) entry hstop
    rw [hempty] at hfull
    cases hfull
  | false =>
    have hlookup := (h.contents key entry.value).mpr ⟨entry, hmem, hempty, hkey, rfl⟩
    rw [hmiss] at hlookup
    cases hlookup

theorem Represents.entry (h : map.Represents ctxHash used M) {value : V} (hhit : M.lookup key = some value) :
    ∃ entry ∈ map.entries, entry.isEmpty = false ∧ entry.key = key ∧ entry.value = value ∧ entry.hash = ctxHash key := by
  obtain ⟨entry, hmem, hfull, hkey, hvalue⟩ := (h.contents key value).mp hhit
  exact ⟨entry, hmem, hfull, hkey, hvalue, hkey ▸ (h.keyed entry hmem hfull).1⟩

theorem Represents.get (h : map.Represents ctxHash used M) (htells : map.Tells ctxHash key) :
    map.get ctxHash key = .ok (M.lookup key) ∨ map.get ctxHash key = .error .probe := by
  unfold HashMap.get
  cases hlookup : M.lookup key with
  | some value =>
    obtain ⟨entry, hmem, hfull, hkey, hvalue, hhash⟩ := h.entry hlookup
    rw [← hhash, h.stop_hit hmem hfull]
    simp [hkey, hvalue]
  | none =>
    cases hstop : map.stop (ctxHash key) with
    | none => exact Or.inr rfl
    | some entry => simp [h.stop_miss hlookup htells hstop]

theorem Represents.has (h : map.Represents ctxHash used M) (htells : map.Tells ctxHash key) :
    map.has ctxHash key = .ok (M.lookup key).isSome ∨ map.has ctxHash key = .error .probe := by
  have heq : map.has ctxHash key = (map.get ctxHash key).map Option.isSome := by
    unfold HashMap.has HashMap.get
    cases map.stop (ctxHash key) with
    | none => rfl
    | some entry => by_cases hkey : entry.key = key <;> simp [hkey, Except.map]
  rw [heq]
  exact (h.get htells).imp (fun hget => by rw [hget]; rfl) fun hget => by rw [hget]; rfl

theorem Represents.mem_keys (h : map.Represents ctxHash used M) :
    key ∈ M.keys ↔ ∃ entry ∈ map.entries, entry.isEmpty = false ∧ entry.key = key := by
  rw [Finmap.mem_keys, Finmap.mem_iff]
  constructor
  · rintro ⟨value, hvalue⟩
    obtain ⟨entry, hmem, hfull, hkey, -⟩ := (h.contents key value).mp hvalue
    exact ⟨entry, hmem, hfull, hkey⟩
  · rintro ⟨entry, hmem, hfull, hkey⟩
    exact ⟨entry.value, (h.contents key _).mpr ⟨entry, hmem, hfull, hkey, rfl⟩⟩

theorem Represents.hasWithHash (h : map.Represents ctxHash used M) {hash : Nat} (hlt : hash < emptyHash) :
    map.hasWithHash hash = decide (∃ key ∈ M.keys, ctxHash key = hash) := by
  unfold HashMap.hasWithHash
  by_cases hkey : ∃ key ∈ M.keys, ctxHash key = hash
  · rw [decide_eq_true hkey]
    obtain ⟨key, hkey, rfl⟩ := hkey
    obtain ⟨entry, hmem, hfull, rfl⟩ := h.mem_keys.mp hkey
    rw [← (h.keyed entry hmem hfull).1, h.stop_hit hmem hfull]
    exact beq_self_eq_true _
  · rw [decide_eq_false hkey]
    cases hstop : map.stop hash with
    | none => rfl
    | some entry =>
      show (entry.hash == hash) = false
      rw [beq_eq_false_iff_ne]
      rintro rfl
      have hmem := (mem_of_stop hstop).1
      have hfull : entry.isEmpty = false := by
        rw [Entry.isEmpty, beq_eq_false_iff_ne]
        omega
      exact hkey ⟨entry.key, h.mem_keys.mpr ⟨entry, hmem, hfull, rfl⟩, (h.keyed entry hmem hfull).1.symm⟩

/-! ### Putting -/

theorem Represents.getOrPut_hit [Inhabited V] (h : map.Represents ctxHash used M) {value : V}
    (hhit : M.lookup key = some value) : ∃ place entry, map.getOrPutAssumeCapacity ctxHash key = .ok (⟨true, place⟩, map) ∧
      map.entries[place]? = some entry ∧ entry.isEmpty = false ∧ entry.key = key ∧ entry.value = value := by
  obtain ⟨entry, hmem, hfull, hkey, hvalue, hhash⟩ := h.entry hhit
  obtain ⟨before, skipped, after, hsplit, hhome, hslots, hskipped⟩ := h.slotsFrom_hit hmem hfull
  rw [hhash] at hhome hslots
  have hloop : getOrPutLoop key ⟨ctxHash key, key, default⟩ none (ctxHash key >>> map.shift) (skipped ++ entry :: after) =
      some (⟨true, ctxHash key >>> map.shift + skipped.length⟩, skipped ++ entry :: after) := by
    rw [getOrPutLoop_skip fun e he => hhash ▸ (hskipped e he).2, getOrPutLoop, if_pos (Nat.le_of_eq hhash.symm), if_pos hkey]
    rfl
  have htake : map.entries.take (ctxHash key >>> map.shift) ++ (skipped ++ entry :: after) = map.entries := by
    rw [hsplit, ← hhome, List.take_left]
  refine ⟨ctxHash key >>> map.shift + skipped.length, entry, ?_, ?_, hfull, hkey, hvalue⟩
  · unfold getOrPutAssumeCapacity
    simp only [hslots, hloop, if_true, htake]
  · rw [hsplit, ← hhome, List.getElem?_append_right (Nat.le_add_right _ _), Nat.add_sub_cancel_left,
      List.getElem?_append_right (Nat.le_refl _), Nat.sub_self, List.getElem?_cons_zero]

theorem Represents.home_le (h : map.Represents ctxHash used M) {hash : Nat} (hhash : hash < 2 ^ 64) :
    hash >>> map.shift ≤ map.entries.length := by
  have hcap : capacity map.shift = 2 ^ (64 - map.shift) := by
    rw [capacity, Nat.shiftLeft_eq, Nat.one_mul]
    congr 1
    have hshift := h.shift
    omega
  have hlt : hash >>> map.shift < capacity map.shift := by
    rw [hcap, Nat.shiftRight_eq_div_pow, Nat.div_lt_iff_lt_mul (Nat.two_pow_pos _), ← Nat.pow_add,
      Nat.sub_add_cancel (by have hshift := h.shift; omega)]
    exact hhash
  rw [h.size]
  omega

/-- Where an entry is to go: behind those with smaller hashes from its home on, and before those that move up to a slot
that is empty -/
structure Room (map : HashMap K V) (it : Entry K V) (before skipped moved : List (Entry K V)) (free : Entry K V)
    (after : List (Entry K V)) : Prop where
  entries : map.entries = before ++ (skipped ++ (moved ++ free :: after))
  home : before.length = it.hash >>> map.shift
  ofSkipped : ∀ e ∈ skipped, e.isEmpty = false ∧ e.hash < it.hash
  ofMoved : ∀ e ∈ moved, e.isEmpty = false ∧ it.hash < e.hash
  ofFree : free.isEmpty = true

section Room
variable {before skipped moved after : List (Entry K V)} {it free : Entry K V}

omit [Inhabited K] [DecidableEq K] in
theorem Room.mem (room : map.Room it before skipped moved free after) {e : Entry K V}
    (he : e ∈ before ++ (skipped ++ it :: (moved ++ after))) : e = it ∨ e ∈ map.entries := by
  rw [room.entries]
  simp only [List.mem_append, List.mem_cons] at he ⊢
  tauto

omit [Inhabited K] [DecidableEq K] in
theorem Room.mem_of_full (room : map.Room it before skipped moved free after) {e : Entry K V} (he : e ∈ map.entries)
    (hfull : e.isEmpty = false) : e ∈ before ++ (skipped ++ it :: (moved ++ after)) := by
  have hne : e ≠ free := fun heq => by
    rw [heq, room.ofFree] at hfull
    cases hfull
  rw [room.entries] at he
  simp only [List.mem_append, List.mem_cons] at he ⊢
  tauto

/-- What is before the home, and what is from there on -/
theorem Represents.placed_room (h : map.Represents ctxHash used M) (room : map.Room it before skipped moved free after) :
    Placed (· >>> map.shift) 0 0 (before.map Entry.slot) ∧
      Placed (· >>> map.shift) before.length (floorAfter 0 0 (before.map Entry.slot))
        ((skipped.map (·.hash)).map some ++ ((moved.map (·.hash)).map some ++ none :: after.map Entry.slot)) := by
  have hplaced := h.placed
  rw [room.entries, List.map_append, List.map_append, List.map_append, List.map_cons,
    map_slot_of_full fun e he => (room.ofSkipped e he).1, map_slot_of_full fun e he => (room.ofMoved e he).1,
    Entry.slot_of_empty room.ofFree, placed_append, List.length_map, Nat.zero_add] at hplaced
  exact hplaced

theorem Represents.placed_insert (h : map.Represents ctxHash used M) (room : map.Room it before skipped moved free after)
    (hit : it.isEmpty = false) :
    Placed (· >>> map.shift) 0 0 ((before ++ (skipped ++ it :: (moved ++ after))).map Entry.slot) := by
  obtain ⟨hbefore, hrest⟩ := h.placed_room room
  have hfloor : floorAfter 0 0 (before.map Entry.slot) ≤ before.length := by
    have hle : floorAfter 0 0 (before.map Entry.slot) ≤ 0 + (before.map Entry.slot).length :=
      Library.Probing.floorAfter_le (Nat.le_refl 0)
    rw [List.length_map, Nat.zero_add] at hle
    exact hle
  have hhome := room.home
  rw [List.map_append, List.map_append, List.map_cons, List.map_append, map_slot_of_full fun e he => (room.ofSkipped e he).1,
    map_slot_of_full fun e he => (room.ofMoved e he).1, Entry.slot_of_full hit, placed_append, List.length_map, Nat.zero_add]
  refine ⟨hbefore, hrest.insert ?_ ?_⟩
  · show _ ≤ it.hash >>> map.shift
    omega
  · show it.hash >>> map.shift ≤ _
    omega

/-- What is before its home has smaller hashes, and what is behind the free slot has greater ones. -/
theorem Represents.hashes_room (h : map.Represents ctxHash used M) (room : map.Room it before skipped moved free after) :
    (∀ hash ∈ hashes before, hash < it.hash) ∧ ∀ hash ∈ hashes after, it.hash < hash := by
  obtain ⟨hbefore, hrest⟩ := h.placed_room room
  have hhome := room.home
  constructor
  · intro hash hhash
    have hlt := hbefore.home_lt (List.reduceOption_mem_iff.mp hhash)
    rw [List.length_map, Nat.zero_add, hhome] at hlt
    exact lt_of_home_lt hlt
  · intro hash hhash
    have hbehind := (Library.Probing.placed_some.mp (Library.Probing.placed_some.mp hrest).2).2
    rw [List.length_map, List.length_map] at hbehind
    have hafter : Placed (· >>> map.shift) (before.length + skipped.length + moved.length + 1)
        (before.length + skipped.length + moved.length + 1) (after.map Entry.slot) := hbehind
    have hle := hafter.floor_le (Nat.le_refl _) (List.reduceOption_mem_iff.mp hhash)
    exact lt_of_home_lt (show it.hash >>> map.shift < hash >>> map.shift by omega)

theorem Represents.sorted_insert (h : map.Represents ctxHash used M) (room : map.Room it before skipped moved free after)
    (hit : it.isEmpty = false) : (hashes (before ++ (skipped ++ it :: (moved ++ after)))).Pairwise (· < ·) := by
  obtain ⟨hbefore, hafter⟩ := h.hashes_room room
  have hskipped : ∀ hash ∈ hashes skipped, hash < it.hash := by
    intro hash hhash
    obtain ⟨e, he, -, rfl⟩ := mem_hashes.mp hhash
    exact (room.ofSkipped e he).2
  have hmoved : ∀ hash ∈ hashes moved, it.hash < hash := by
    intro hash hhash
    obtain ⟨e, he, -, rfl⟩ := mem_hashes.mp hhash
    exact (room.ofMoved e he).2
  have hsorted := h.sorted
  rw [room.entries, hashes_append, hashes_append, hashes_append, hashes_cons_empty room.ofFree] at hsorted
  rw [hashes_append, hashes_append, hashes_cons_full hit, hashes_append]
  simp only [List.pairwise_append, List.pairwise_cons, List.mem_append, List.mem_cons] at hsorted ⊢
  grind

/-- The keys and the values are those of the map with one more. -/
theorem Represents.contents_insert (h : map.Represents ctxHash used M) (room : map.Room it before skipped moved free after)
    (hit : it.isEmpty = false) (hmiss : M.lookup it.key = none) (key : K) (value : V) :
    (M.insert it.key it.value).lookup key = some value ↔
      ∃ e ∈ before ++ (skipped ++ it :: (moved ++ after)), e.isEmpty = false ∧ e.key = key ∧ e.value = value := by
  by_cases hkey : key = it.key
  · subst hkey
    rw [Finmap.lookup_insert, Option.some.injEq]
    constructor
    · rintro rfl
      exact ⟨it, by simp, hit, rfl, rfl⟩
    · rintro ⟨e, he, hfull, hsame, rfl⟩
      rcases room.mem he with rfl | he
      · rfl
      · have hlookup := (h.contents it.key e.value).mpr ⟨e, he, hfull, hsame, rfl⟩
        rw [hmiss] at hlookup
        cases hlookup
  · rw [Finmap.lookup_insert_of_ne _ hkey, h.contents]
    constructor
    · rintro ⟨e, he, hfull, hsame⟩
      exact ⟨e, room.mem_of_full he hfull, hfull, hsame⟩
    · rintro ⟨e, he, hfull, hsame, hvalue⟩
      rcases room.mem he with rfl | he
      · exact absurd hsame.symm hkey
      · exact ⟨e, he, hfull, hsame, hvalue⟩

/-- An entry is put into the table, and the entries it meets move up to a slot that is empty. -/
theorem Represents.insertEntry (h : map.Represents ctxHash used M) (room : map.Room it before skipped moved free after)
    (hit : it.isEmpty = false) (hkeyed : it.hash = ctxHash it.key ∧ used it.key) (hmiss : M.lookup it.key = none) :
    ({map with entries := before ++ (skipped ++ it :: (moved ++ after)), len := map.len + 1} :
      HashMap K V).Represents ctxHash used (M.insert it.key it.value) := by
  refine ⟨h.shift, ?_, h.placed_insert room hit, h.sorted_insert room hit, ?_, ?_, ?_, h.contents_insert room hit hmiss⟩
  · rw [← h.size, room.entries]
    simp only [List.length_append, List.length_cons]
    omega
  · intro e he hempty
    rcases room.mem he with rfl | he
    · rw [hit] at hempty
      cases hempty
    · exact h.empty e he hempty
  · intro e he hfull
    rcases room.mem he with rfl | he
    · exact hkeyed
    · exact h.keyed e he hfull
  · show map.len + 1 = (hashes (before ++ (skipped ++ it :: (moved ++ after)))).length
    rw [h.len, room.entries]
    simp only [hashes_append, hashes_cons_full hit, hashes_cons_empty room.ofFree, List.length_append, List.length_cons]
    omega

end Room

theorem Represents.getOrPut_miss [Inhabited V] (h : map.Represents ctxHash used M) (hhashes : Hashes ctxHash used)
    (hused : used key) (hmiss : M.lookup key = none) (hdefault : key ≠ default) :
    map.getOrPutAssumeCapacity ctxHash key = .error .probe ∨
      ∃ place map', map.getOrPutAssumeCapacity ctxHash key = .ok (⟨false, place⟩, map') ∧
        map'.entries[place]? = some ⟨ctxHash key, key, default⟩ ∧ map'.Represents ctxHash used (M.insert key default) := by
  have hlt : ctxHash key < emptyHash := hhashes.lt hused
  have hle := h.home_le (Nat.lt_of_lt_of_le hlt (Nat.sub_le _ _))
  have hcut : map.entries.take (ctxHash key >>> map.shift) ++ map.slotsFrom (ctxHash key) = map.entries :=
    List.take_append_drop _ _
  obtain ⟨before, hbefore⟩ : ∃ before, map.entries.take (ctxHash key >>> map.shift) = before := ⟨_, rfl⟩
  have hlength : before.length = ctxHash key >>> map.shift := hbefore ▸ List.length_take_of_le hle
  rw [hbefore] at hcut
  have hnotKey : ∀ e ∈ map.entries, e.isEmpty = false → e.key ≠ key := by
    intro e he hfull hkey
    have hlookup := (h.contents key e.value).mpr ⟨e, he, hfull, hkey, rfl⟩
    rw [hmiss] at hlookup
    cases hlookup
  have hkeys : ∀ e ∈ map.slotsFrom (ctxHash key), e.key ≠ key := by
    intro e he hkey
    have he := List.mem_of_mem_drop he
    cases hempty : e.isEmpty with
    | true => exact hdefault (hkey.symm.trans (h.empty e he hempty))
    | false => exact hnotKey e he hempty hkey
  have hne : ctxHash key ∉ hashes map.entries := by
    intro hmem
    obtain ⟨e, he, hfull, hhash⟩ := mem_hashes.mp hmem
    obtain ⟨hown, hused'⟩ := h.keyed e he hfull
    exact hnotKey e he hfull (hhashes.injective hused' hused (hown.symm.trans hhash))
  have hsorted := h.sorted
  rw [← hcut, hashes_append, List.pairwise_append] at hsorted
  unfold getOrPutAssumeCapacity
  cases hloop : getOrPutLoop key ⟨ctxHash key, key, default⟩ none (ctxHash key >>> map.shift) (map.slotsFrom (ctxHash key)) with
  | none => exact Or.inl (by simp only [hloop])
  | some r =>
    right
    have hneSlots : ctxHash key ∉ hashes (map.slotsFrom (ctxHash key)) := fun hmem => hne (by
      rw [← hcut, hashes_append]
      exact List.mem_append_right _ hmem)
    obtain ⟨skipped, moved, free, after, hslots, hskipped, hmoved, hfree, hr⟩ := getOrPutLoop_miss hsorted.2.1 hkeys hneSlots
      (fun e he hfull => (h.keyed e (List.mem_of_mem_drop he) hfull).1 ▸ hhashes.lt (h.keyed e (List.mem_of_mem_drop he) hfull).2)
      hloop
    subst hr
    have hskippedFull : ∀ e ∈ skipped, e.isEmpty = false ∧ e.hash < ctxHash key :=
      fun e he => ⟨full_of_lt (hskipped e he) hlt, hskipped e he⟩
    have hentries : map.entries = before ++ (skipped ++ (moved ++ free :: after)) := by rw [← hcut, hslots]
    have hfull : (⟨ctxHash key, key, default⟩ : Entry K V).isEmpty = false := by
      rw [Entry.isEmpty, beq_eq_false_iff_ne]
      exact Nat.ne_of_lt hlt
    refine ⟨ctxHash key >>> map.shift + skipped.length, _, ?_, ?_,
      h.insertEntry ⟨hentries, hlength, hskippedFull, hmoved, hfree⟩ hfull ⟨rfl, hused⟩ hmiss⟩
    · simp only [hloop, hbefore, Option.getD_none, Bool.false_eq_true, if_false]
    · rw [← hlength, List.getElem?_append_right (Nat.le_add_right _ _), Nat.add_sub_cancel_left,
        List.getElem?_append_right (Nat.le_refl _), Nat.sub_self, List.getElem?_cons_zero]

/-- The keys of the entries that are not empty tell them apart. -/
theorem Represents.key_unique (h : map.Represents ctxHash used M) {before after : List (Entry K V)} {entry : Entry K V}
    (hentries : map.entries = before ++ entry :: after) (hfull : entry.isEmpty = false) :
    ∀ e ∈ before ++ after, e.isEmpty = false → e.key ≠ entry.key := by
  intro e he hefull hkey
  have hsorted := h.sorted
  rw [hentries, hashes_append, hashes_cons_full hfull] at hsorted
  simp only [List.pairwise_append, List.pairwise_cons, List.mem_cons] at hsorted
  have hhash : e.hash = entry.hash := by
    have he' : e ∈ map.entries := by
      rw [hentries]
      simp only [List.mem_append, List.mem_cons] at he ⊢
      tauto
    have hentry : entry ∈ map.entries := by
      rw [hentries]
      simp
    rw [(h.keyed e he' hefull).1, (h.keyed entry hentry hfull).1, hkey]
  rcases List.mem_append.mp he with he | he
  · have hlt := hsorted.2.2 e.hash (mem_hashes.mpr ⟨e, he, hefull, rfl⟩) entry.hash (Or.inl rfl)
    omega
  · have hlt := hsorted.2.1.1 e.hash (mem_hashes.mpr ⟨e, he, hefull, rfl⟩)
    omega

theorem Represents.writeValue (h : map.Represents ctxHash used M) {place : Nat} {entry : Entry K V}
    (hget : map.entries[place]? = some entry) (hfull : entry.isEmpty = false) (value : V) :
    (map.writeValue place value).Represents ctxHash used (M.insert entry.key value) := by
  obtain ⟨hlt, hentry⟩ := List.getElem?_eq_some_iff.mp hget
  obtain ⟨before, after, hentries, hplace⟩ : ∃ before after, map.entries = before ++ entry :: after ∧ before.length = place :=
    ⟨map.entries.take place, map.entries.drop (place + 1), by
      rw [← hentry, ← List.drop_eq_getElem_cons hlt, List.take_append_drop], List.length_take_of_le (Nat.le_of_lt hlt)⟩
  have hunique := h.key_unique hentries hfull
  have hwritten : (map.writeValue place value).entries = before ++ {entry with value := value} :: after := by
    rw [HashMap.writeValue, ← hplace, hentries]
    exact modify_append before after entry _
  have hslots : (map.writeValue place value).entries.map Entry.slot = map.entries.map Entry.slot := by
    rw [hwritten, hentries, List.map_append, List.map_append, List.map_cons, List.map_cons]
    rfl
  have hhashes : hashes (map.writeValue place value).entries = hashes map.entries := by rw [hashes, hslots]; rfl
  have hmem : ∀ e ∈ (map.writeValue place value).entries, e ∈ map.entries ∨ e = {entry with value := value} := by
    intro e he
    rw [hwritten] at he
    rw [hentries]
    simp only [List.mem_append, List.mem_cons] at he ⊢
    tauto
  have hentryMem : entry ∈ map.entries := List.mem_of_getElem? hget
  refine ⟨h.shift, ?_, ?_, ?_, ?_, ?_, ?_, ?_⟩
  · rw [HashMap.writeValue, List.length_modify]
    exact h.size
  · rw [hslots]
    exact h.placed
  · rw [hhashes]
    exact h.sorted
  · intro e he hempty
    rcases hmem e he with he | rfl
    · exact h.empty e he hempty
    · exact h.empty entry hentryMem hempty
  · intro e he hefull
    rcases hmem e he with he | rfl
    · exact h.keyed e he hefull
    · exact h.keyed entry hentryMem hfull
  · rw [hhashes]
    exact h.len
  · intro key v
    rw [hwritten]
    by_cases hkey : key = entry.key
    · subst hkey
      rw [Finmap.lookup_insert, Option.some.injEq]
      constructor
      · rintro rfl
        exact ⟨{entry with value := value}, by simp, hfull, rfl, rfl⟩
      · rintro ⟨e, he, hefull, hsame, rfl⟩
        simp only [List.mem_append, List.mem_cons] at he
        rcases he with he | rfl | he
        · exact absurd hsame (hunique e (List.mem_append_left _ he) hefull)
        · rfl
        · exact absurd hsame (hunique e (List.mem_append_right _ he) hefull)
    · rw [Finmap.lookup_insert_of_ne _ hkey, h.contents, hentries]
      constructor
      · rintro ⟨e, he, hefull, hsame, hvalue⟩
        simp only [List.mem_append, List.mem_cons] at he ⊢
        rcases he with he | rfl | he
        · exact ⟨e, Or.inl he, hefull, hsame, hvalue⟩
        · exact absurd hsame.symm hkey
        · exact ⟨e, Or.inr (Or.inr he), hefull, hsame, hvalue⟩
      · rintro ⟨e, he, hefull, hsame, hvalue⟩
        simp only [List.mem_append, List.mem_cons] at he ⊢
        rcases he with he | rfl | he
        · exact ⟨e, Or.inl he, hefull, hsame, hvalue⟩
        · exact absurd hsame.symm hkey
        · exact ⟨e, Or.inr (Or.inr he), hefull, hsame, hvalue⟩

/-! ### Deleting -/

/-- An entry is taken out of the table, and those behind it that are not at home move down. -/
theorem Represents.deleteEntry [Inhabited V] (h : map.Represents ctxHash used M)
    {before skipped moved after : List (Entry K V)} {entry : Entry K V}
    (hentries : map.entries = before ++ (skipped ++ entry :: (moved ++ after)))
    (hskipped : ∀ e ∈ skipped, e.isEmpty = false) (hfull : entry.isEmpty = false) (hmoved : ∀ e ∈ moved, e.isEmpty = false)
    (hhomes : ∀ n e, moved[n]? = some e → e.hash >>> map.shift ≤ before.length + skipped.length + n)
    (hstops : ∀ hash ∈ hashes after, before.length + skipped.length + moved.length < hash >>> map.shift) :
    ({map with entries := before ++ (skipped ++ (moved ++ Entry.empty :: after)), len := map.len - 1} :
      HashMap K V).Represents ctxHash used (M.erase entry.key) := by
  have hentries' : map.entries = (before ++ skipped) ++ entry :: (moved ++ after) := by rw [hentries, List.append_assoc]
  have hunique := h.key_unique hentries' hfull
  have hmem : ∀ e : Entry K V, e ∈ before ++ (skipped ++ (moved ++ Entry.empty :: after)) ↔
      e = Entry.empty ∨ e ∈ (before ++ skipped) ++ (moved ++ after) := by
    intro e
    simp only [List.mem_append, List.mem_cons]
    tauto
  have hsub : ∀ e ∈ (before ++ skipped) ++ (moved ++ after), e ∈ map.entries := by
    intro e he
    rw [hentries']
    simp only [List.mem_append, List.mem_cons] at he ⊢
    tauto
  have hemptySlot : (Entry.empty : Entry K V).isEmpty = true := beq_self_eq_true _
  have hskippedSlots := map_slot_of_full hskipped
  have hmovedSlots := map_slot_of_full hmoved
  have hplaced := h.placed
  rw [hentries, List.map_append, List.map_append, List.map_cons, List.map_append, hskippedSlots, hmovedSlots,
    Entry.slot_of_full hfull, placed_append] at hplaced
  have hbeforeLength : (before.map Entry.slot).length = before.length := List.length_map _
  obtain ⟨hplacedBefore, hplacedRest⟩ := hplaced
  rw [hbeforeLength, Nat.zero_add] at hplacedRest
  have hsorted := h.sorted
  rw [hentries, hashes_append, hashes_append, hashes_cons_full hfull, hashes_append] at hsorted
  refine ⟨h.shift, ?_, ?_, ?_, ?_, ?_, ?_, ?_⟩
  · rw [← h.size, hentries]
    simp only [List.length_append, List.length_cons]
    omega
  · show Placed (· >>> map.shift) 0 0 _
    rw [List.map_append, List.map_append, List.map_append, List.map_cons, hskippedSlots, hmovedSlots,
      Entry.slot_of_empty hemptySlot, placed_append, hbeforeLength, Nat.zero_add]
    refine ⟨hplacedBefore, hplacedRest.delete ?_ ?_⟩
    · intro n hash hhash
      rw [List.getElem?_map, Option.map_eq_some_iff] at hhash
      obtain ⟨e, he, rfl⟩ := hhash
      rw [List.length_map]
      exact hhomes n e he
    · intro hash hhash
      rw [List.length_map, List.length_map]
      exact hstops hash (List.reduceOption_mem_iff.mpr hhash)
  · show (hashes _).Pairwise _
    rw [hashes_append, hashes_append, hashes_append, hashes_cons_empty hemptySlot]
    simp only [List.pairwise_append, List.pairwise_cons, List.mem_append, List.mem_cons] at hsorted ⊢
    grind
  · intro e he hempty
    rcases (hmem e).mp he with rfl | he
    · rfl
    · exact h.empty e (hsub e he) hempty
  · intro e he hefull
    rcases (hmem e).mp he with rfl | he
    · rw [hemptySlot] at hefull
      cases hefull
    · exact h.keyed e (hsub e he) hefull
  · show map.len - 1 = (hashes (before ++ (skipped ++ (moved ++ Entry.empty :: after)))).length
    rw [h.len, hentries]
    simp only [hashes_append, hashes_cons_full hfull, hashes_cons_empty hemptySlot, List.length_append, List.length_cons]
    omega
  · intro key value
    by_cases hkey : key = entry.key
    · subst hkey
      rw [Finmap.lookup_erase]
      constructor
      · intro hnone
        cases hnone
      · rintro ⟨e, he, hefull, hsame, -⟩
        rcases (hmem e).mp he with rfl | he
        · rw [hemptySlot] at hefull
          cases hefull
        · exact absurd hsame (hunique e he hefull)
    · rw [Finmap.lookup_erase_ne hkey, h.contents]
      constructor
      · rintro ⟨e, he, hefull, hsame, hvalue⟩
        refine ⟨e, (hmem e).mpr (Or.inr ?_), hefull, hsame, hvalue⟩
        have hne : e ≠ entry := fun heq => hkey (by rw [← hsame, heq])
        rw [hentries'] at he
        simp only [List.mem_append, List.mem_cons] at he ⊢
        tauto
      · rintro ⟨e, he, hefull, hsame, hvalue⟩
        rcases (hmem e).mp he with rfl | he
        · rw [hemptySlot] at hefull
          cases hefull
        · exact ⟨e, hsub e he, hefull, hsame, hvalue⟩

theorem Represents.delete [Inhabited V] (h : map.Represents ctxHash used M) (htells : map.Tells ctxHash key) :
    map.delete ctxHash key = .error .probe ∨
      ∃ map', map.delete ctxHash key = .ok (M.lookup key, map') ∧ map'.Represents ctxHash used (M.erase key) := by
  unfold HashMap.delete
  dsimp only
  cases hlookup : M.lookup key with
  | none =>
    have herase : M.erase key = M := by
      refine Finmap.ext_lookup fun key' => ?_
      by_cases hkey : key' = key
      · rw [hkey, Finmap.lookup_erase, hlookup]
      · rw [Finmap.lookup_erase_ne hkey]
    rw [herase]
    rcases deleteLoop_miss map.shift (ctxHash key >>> map.shift) fun e (he : map.stop (ctxHash key) = some e) =>
      h.stop_miss hlookup htells he with hnone | ⟨slots', hsome⟩
    · rw [hnone]
      exact Or.inl rfl
    · rw [hsome]
      exact Or.inr ⟨map, rfl, h⟩
  | some value =>
    obtain ⟨entry, hmem, hfull, hkey, hvalue, hhash⟩ := h.entry hlookup
    obtain ⟨before, skipped, behind, hsplit, hhome, hslots, hskipped⟩ := h.slotsFrom_hit hmem hfull
    rw [← hhash, hslots, deleteLoop_skip fun e he => (hskipped e he).2, deleteLoop, if_pos (Nat.le_refl _),
      if_neg (not_not.mpr hkey)]
    cases hshift : backShift map.shift (entry.hash >>> map.shift + skipped.length) behind with
    | none => exact Or.inl rfl
    | some r =>
      obtain ⟨moved, next, after, hbehind, hmoved, hhomes, hstop, rfl⟩ := backShift_some hshift
      rw [hbehind] at hsplit
      have hlen : map.len ≠ 0 := by
        rw [h.len]
        exact Nat.ne_of_gt (List.length_pos_of_mem (mem_hashes.mpr ⟨entry, hmem, hfull, rfl⟩))
      rw [← hhome] at hhomes hstop
      -- what is behind the place that is freed has its home behind it
      have hstops : ∀ hash ∈ hashes (next :: after),
          before.length + skipped.length + moved.length < hash >>> map.shift := by
        intro hash hhashMem
        cases hempty : next.isEmpty with
        | true =>
          have hplaced := h.placed
          have hentries : map.entries = (before ++ skipped ++ entry :: moved) ++ next :: after := by
            rw [hsplit]
            simp only [List.append_assoc, List.cons_append]
          rw [hentries, List.map_append, List.map_cons, Entry.slot_of_empty hempty, placed_append] at hplaced
          rw [hashes_cons_empty hempty] at hhashMem
          have hrest : Placed (· >>> map.shift) _ _ (after.map Entry.slot) := hplaced.2
          have hle := hrest.floor_le (Nat.le_refl _) (List.reduceOption_mem_iff.mp hhashMem)
          simp only [List.length_map, List.length_append, List.length_cons] at hle
          omega
        | false =>
          have hlt := hstop.resolve_left (by rw [hempty]; decide)
          have hsorted := h.sorted
          rw [hsplit, hashes_append, hashes_append, hashes_cons_full hfull, hashes_append] at hsorted
          rw [hashes_cons_full hempty] at hsorted hhashMem
          simp only [List.pairwise_append, List.pairwise_cons] at hsorted
          have hle : next.hash ≤ hash := by
            rcases List.mem_cons.mp hhashMem with rfl | hin
            · exact Nat.le_refl _
            · exact Nat.le_of_lt (hsorted.2.1.2.1.2.2.1.1 hash hin)
          have hmono : next.hash >>> map.shift ≤ hash >>> map.shift := by
            rw [Nat.shiftRight_eq_div_pow, Nat.shiftRight_eq_div_pow]
            exact Nat.div_le_div_right hle
          omega
      have hdeleted := h.deleteEntry hsplit (fun e he => (hskipped e he).1) hfull hmoved hhomes hstops
      rw [hkey] at hdeleted
      refine Or.inr ⟨_, ?_, hdeleted⟩
      simp only [Option.map_some, if_neg hlen, hvalue, ← hhome]
      rw [hsplit, List.take_left]

end
end HashMap
end Funbun.Collections.StaticHashMap
