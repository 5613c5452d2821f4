import Funbun.Collections.StaticHashMapProofs

/-! Growing, and runs of the hash map beside the finite map that the same calls make. -/
namespace Funbun.Collections.StaticHashMap
open Library.Probing (Placed placed_append spread)

variable {K V : Type}

namespace HashMap

theorem capacity_eq {shift : Nat} (h : shift ≤ 63) : capacity shift = 2 ^ (64 - shift) := by
  rw [capacity, Nat.shiftLeft_eq, Nat.one_mul]
  congr 1
  omega

theorem computeShift_two_pow (k : Nat) : computeShift (2 ^ k) = 63 - k + 1 := by rw [computeShift, Nat.log2_two_pow]

theorem isEmpty_empty [Inhabited K] [Inhabited V] : (Entry.empty : Entry K V).isEmpty = true := beq_self_eq_true _

theorem map_slot_replicate [Inhabited K] [Inhabited V] (n : Nat) :
    (List.replicate n (Entry.empty : Entry K V)).map Entry.slot = List.replicate n none := by
  rw [List.map_replicate, Entry.slot_of_empty isEmpty_empty]

/-! ### Growing -/

theorem growLoop_eq [Inhabited K] [Inhabited V] (shift n : Nat) (entries copied : List (Entry K V))
    (hroom : (spread (· >>> shift) copied.length (entries.map Entry.slot)).length ≤ n) :
    ∃ table, growLoop shift entries copied.length (copied ++ List.replicate n Entry.empty) = some (copied ++ table) ∧
      table.length = n ∧ (∃ k, table.map Entry.slot =
        spread (· >>> shift) copied.length (entries.map Entry.slot) ++ List.replicate k none) ∧
      (∀ e ∈ table, e ∈ entries ∨ e = Entry.empty) ∧ ∀ e ∈ entries, e ∈ table := by
  induction entries generalizing copied n with
  | nil =>
    refine ⟨List.replicate n Entry.empty, rfl, List.length_replicate, ⟨n, map_slot_replicate n⟩, ?_, List.forall_mem_nil _⟩
    intro e he
    exact Or.inr (List.eq_of_mem_replicate he)
  | cons e entries ih =>
    obtain ⟨i, hi⟩ : ∃ i, (if !e.isEmpty then e.hash >>> shift else 0) = i := ⟨_, rfl⟩
    obtain ⟨gap, hgap⟩ : ∃ gap, i - copied.length = gap := ⟨_, rfl⟩
    have hdst : (if i ≥ copied.length then i else copied.length) = copied.length + gap := by
      split <;> omega
    have hspread : spread (· >>> shift) copied.length ((e :: entries).map Entry.slot) =
        List.replicate gap none ++ e.slot :: spread (· >>> shift) (copied.length + gap + 1) (entries.map Entry.slot) := by
      rw [List.map_cons]
      cases hempty : e.isEmpty with
      | true =>
        rw [hempty] at hi
        have hzero : gap = 0 := by
          rw [← hgap, ← hi]
          exact Nat.zero_sub _
        rw [Entry.slot_of_empty hempty, hzero]
        rfl
      | false =>
        rw [hempty] at hi
        have hi : e.hash >>> shift = i := hi
        have hmax : max copied.length (e.hash >>> shift) = copied.length + gap := by
          rw [hi]
          omega
        rw [Entry.slot_of_full hempty, spread, hmax, hi, hgap]
    rw [hspread, List.length_append, List.length_replicate, List.length_cons] at hroom
    have hset : (copied ++ List.replicate n (Entry.empty : Entry K V)).set (copied.length + gap) e =
        (copied ++ (List.replicate gap Entry.empty ++ [e])) ++ List.replicate (n - gap - 1) Entry.empty := by
      have hn : n = gap + (n - gap - 1 + 1) := by omega
      conv => lhs; rw [hn, List.replicate_add, List.replicate_succ]
      rw [List.set_append_right _ _ (Nat.le_add_right _ _), Nat.add_sub_cancel_left,
        List.set_append_right _ _ (Nat.le_of_eq List.length_replicate), List.length_replicate, Nat.sub_self]
      simp only [List.set_cons_zero, List.append_assoc, List.singleton_append]
    have hlength : (copied ++ (List.replicate gap (Entry.empty : Entry K V) ++ [e])).length = copied.length + gap + 1 := by
      simp only [List.length_append, List.length_replicate, List.length_singleton]
      omega
    obtain ⟨table, hloop, htable, ⟨k, hslots⟩, hmem, hmem'⟩ :=
      ih (n - gap - 1) (copied ++ (List.replicate gap Entry.empty ++ [e])) (by rw [hlength]; omega)
    rw [hlength] at hloop hslots
    refine ⟨List.replicate gap Entry.empty ++ e :: table, ?_, ?_, ⟨k, ?_⟩, ?_, ?_⟩
    · rw [growLoop]
      simp only [hi, hdst, hset]
      rw [if_pos (by rw [List.length_append, List.length_replicate]; omega), hloop]
      simp only [List.append_assoc, List.singleton_append]
    · rw [List.length_append, List.length_replicate, List.length_cons, htable]
      omega
    · rw [hspread, List.map_append, List.map_cons, map_slot_replicate, hslots]
      simp only [List.append_assoc, List.cons_append]
    · intro e' he'
      rcases List.mem_append.mp he' with he' | he'
      · exact Or.inr (List.eq_of_mem_replicate he')
      · rcases List.mem_cons.mp he' with rfl | he'
        · exact Or.inl List.mem_cons_self
        · exact (hmem e' he').imp_left (List.mem_cons_of_mem _)
    · intro e' he'
      rcases List.mem_cons.mp he' with rfl | he'
      · simp
      · exact List.mem_append_right _ (List.mem_cons_of_mem _ (hmem' e' he'))

section
variable [Inhabited K] [DecidableEq K] [Inhabited V] {ctxHash : K → Nat} {used : K → Prop} {map : HashMap K V}
  {M : Finmap fun _ : K => V}

omit [Inhabited V] in
theorem Represents.hash_lt (h : map.Represents ctxHash used M) (hhashes : Hashes ctxHash used) {hash : Nat}
    (hmem : hash ∈ hashes map.entries) : hash < 2 ^ 64 := by
  obtain ⟨e, he, hfull, rfl⟩ := mem_hashes.mp hmem
  obtain ⟨hhash, hused⟩ := h.keyed e he hfull
  rw [hhash]
  exact Nat.lt_of_lt_of_le (hhashes.lt hused) (Nat.sub_le _ _)

theorem Represents.grow (h : map.Represents ctxHash used M) (hhashes : Hashes ctxHash used) :
    map.grow = .error .capacity ∨ ∃ map', map.grow = .ok map' ∧ map'.Represents ctxHash used M ∧ map'.len = map.len := by
  obtain ⟨hpos, hle⟩ := h.shift
  have hcap := capacity_eq hle
  unfold HashMap.grow
  by_cases hone : map.shift = 1
  · left
    have hbig : ¬ (2 ^ 63 * 2 < 2 ^ 64 ∧ computeShift (2 ^ 63 * 2) ≤ 63) := by omega
    rw [hcap, hone, initCapacity, if_neg hbig]
  · right
    obtain ⟨k, hk⟩ : ∃ k, 64 - map.shift = k := ⟨_, rfl⟩
    have hdouble : capacity map.shift * 2 = 2 ^ (k + 1) := by rw [hcap, hk, Nat.pow_succ]
    have hshift : computeShift (2 ^ (k + 1)) = map.shift - 1 := by
      rw [computeShift_two_pow]
      omega
    have hfits : 2 ^ (k + 1) < 2 ^ 64 := Nat.pow_lt_pow_right (by decide) (by omega)
    have hinit : (initCapacity (capacity map.shift * 2) : Except Fault (HashMap K V)) =
        .ok ⟨List.replicate (2 ^ (k + 1) + computeOverflow (2 ^ (k + 1)) (map.shift - 1)) Entry.empty, 0, map.shift - 1⟩ := by
      rw [hdouble, initCapacity, hshift, if_pos ⟨hfits, by omega⟩]
    -- the first bits of a hash, one more than before
    have htwice : ∀ hash : Nat, 2 * hash >>> map.shift ≤ hash >>> (map.shift - 1) ∧
        hash >>> (map.shift - 1) ≤ 2 * hash >>> map.shift + 1 := by
      intro hash
      have hhalf : hash >>> map.shift = hash >>> (map.shift - 1) / 2 := by
        have hsum : map.shift = map.shift - 1 + 1 := by omega
        conv => lhs; rw [hsum, Nat.shiftRight_succ]
      omega
    have hhomes : ∀ hash, some hash ∈ map.entries.map Entry.slot → hash >>> (map.shift - 1) < 2 * 2 ^ k := by
      intro hash hmem
      have hlt := h.hash_lt hhashes (List.reduceOption_mem_iff.mpr hmem)
      have hpow : 2 ^ 64 = 2 * 2 ^ k * 2 ^ (map.shift - 1) := by
        rw [← Nat.pow_succ', ← Nat.pow_add]
        congr 1
        omega
      rw [Nat.shiftRight_eq_div_pow, Nat.div_lt_iff_lt_mul (Nat.two_pow_pos _), ← hpow]
      exact hlt
    have hlength : 0 + (spread (· >>> (map.shift - 1)) 0 (map.entries.map Entry.slot)).length ≤
        2 ^ k + 0 + (map.entries.map Entry.slot).length :=
      h.placed.length_spread (fun hash => (htwice hash).2) hhomes (Nat.zero_le _)
    have hsize := h.size
    rw [hcap, hk] at hsize
    have hover : computeOverflow (2 ^ k) map.shift ≤ computeOverflow (2 ^ (k + 1)) (map.shift - 1) := by
      rw [computeOverflow, computeOverflow, Nat.shiftLeft_eq, Nat.shiftLeft_eq]
      have hten : 2 ^ k / 10 ≤ 2 ^ (k + 1) / 10 := Nat.div_le_div_right (Nat.pow_le_pow_right (by decide) (Nat.le_succ k))
      omega
    have hpow : 2 ^ (k + 1) = 2 ^ k * 2 := Nat.pow_succ 2 k
    rw [List.length_map] at hlength
    obtain ⟨table, hloop, htable, ⟨free, hslots⟩, hmem, hmem'⟩ := growLoop_eq (map.shift - 1)
      (2 ^ (k + 1) + computeOverflow (2 ^ (k + 1)) (map.shift - 1)) map.entries [] (by
        rw [List.length_nil]
        omega)
    have hstop : map.entries.length = capacity map.shift + computeOverflow (capacity map.shift) map.shift := h.size
    rw [List.nil_append, List.nil_append, List.length_nil] at hloop
    rw [List.length_nil] at hslots
    have hhashesTable : hashes table = hashes map.entries := by
      rw [hashes, hslots, List.reduceOption_append, Library.Probing.reduceOption_spread, List.reduceOption_replicate_none,
        List.append_nil]
      rfl
    refine ⟨{map with entries := table, shift := map.shift - 1}, ?_, ⟨⟨by show 1 ≤ map.shift - 1; omega,
      by show map.shift - 1 ≤ 63; omega⟩, ?_, ?_, ?_, ?_, ?_, ?_, ?_⟩, rfl⟩
    · rw [hinit, ← hstop]
      simp only [List.take_length, hloop, Nat.lt_irrefl, if_false]
    · show table.length = _
      have hcap' : capacity (map.shift - 1) = 2 ^ (k + 1) := by
        rw [capacity_eq (by omega)]
        congr 1
        omega
      rw [htable, hcap']
    · show Placed (· >>> (map.shift - 1)) 0 0 (table.map Entry.slot)
      rw [hslots, placed_append]
      refine ⟨h.placed.spread (Nat.le_refl 0) htwice ?_ (Nat.le_refl 0) fun _ _ => Nat.zero_le _, Library.Probing.placed_none⟩
      refine h.sorted.imp fun {a b} hlt => ?_
      rw [Nat.shiftRight_eq_div_pow, Nat.shiftRight_eq_div_pow]
      exact Nat.div_le_div_right (Nat.le_of_lt hlt)
    · show (hashes table).Pairwise _
      rw [hhashesTable]
      exact h.sorted
    · intro e he hempty
      rcases hmem e he with he | rfl
      · exact h.empty e he hempty
      · rfl
    · intro e he hfull
      rcases hmem e he with he | rfl
      · exact h.keyed e he hfull
      · rw [isEmpty_empty] at hfull
        cases hfull
    · show map.len = (hashes table).length
      rw [hhashesTable]
      exact h.len
    · intro key value
      rw [h.contents]
      constructor
      · rintro ⟨e, he, hrest⟩
        exact ⟨e, hmem' e he, hrest⟩
      · rintro ⟨e, he, hfull, hrest⟩
        rcases hmem e he with he | rfl
        · exact ⟨e, he, hfull, hrest⟩
        · rw [isEmpty_empty] at hfull
          cases hfull

theorem Represents.ensureTotalCapacity (h : map.Represents ctxHash used M) (hhashes : Hashes ctxHash used)
    {maxLoad fuel count : Nat} : ensureTotalCapacity maxLoad fuel map count = .error .capacity ∨
      ∃ map', ensureTotalCapacity maxLoad fuel map count = .ok map' ∧ map'.Represents ctxHash used M := by
  induction fuel generalizing map with
  | zero => exact Or.inl rfl
  | succ fuel ih =>
    rw [HashMap.ensureTotalCapacity]
    split
    · exact Or.inl rfl
    · split
      · exact Or.inr ⟨map, rfl, h⟩
      · rcases h.grow hhashes with hgrow | ⟨map', hgrow, hmap', -⟩
        · rw [hgrow]
          exact Or.inl rfl
        · rw [hgrow]
          exact ih hmap'

/-! ### Calls -/

/-- What a call gives on a finite map, and the map behind it. An existing value is not overwritten by `put`. -/
def Call.onMap (ctxHash : K → Nat) (M : Finmap fun _ : K => V) : Call K V → Reply V × Finmap fun _ : K => V
  | .put key value => (.done, if (M.lookup key).isSome then M else M.insert key value)
  | .getOrPut key write => (.place (M.lookup key).isSome (some ((M.lookup key).getD default)),
      match write with
      | some value => M.insert key value
      | none => if (M.lookup key).isSome then M else M.insert key default)
  | .get key => (.value (M.lookup key), M)
  | .has key => (.answer (M.lookup key).isSome, M)
  | .hasWithHash keyHash => (.answer (decide (∃ key ∈ M.keys, ctxHash key = keyHash)), M)
  | .delete key => (.value (M.lookup key), M.erase key)
  | .clearRetainingCapacity => (.done, ∅)

/-- The keys of a call are in use, and a hash it gives is not the mark of an empty slot. -/
def Call.Uses (used : K → Prop) : Call K V → Prop
  | .put key _ | .getOrPut key _ | .get key | .has key | .delete key => used key
  | .hasWithHash keyHash => keyHash < emptyHash
  | .clearRetainingCapacity => True

/-- The condition under which a call keeps the map: a key that is the default is not put, and a probe for it
does not stop at a slot that is empty. -/
def Call.Fine (ctxHash : K → Nat) (map : HashMap K V) : Call K V → Prop
  | .put key _ | .getOrPut key _ => key ≠ default
  | .get key | .has key | .delete key => map.Tells ctxHash key
  | .hasWithHash _ | .clearRetainingCapacity => True

/-- What `put` and `get_or_put` rest on: a place of the key in the table, with its value or with the default. -/
theorem Represents.getOrPut (h : map.Represents ctxHash used M) (hhashes : Hashes ctxHash used) {maxLoad : Nat} {key : K}
    (hused : used key) (hdefault : key ≠ default) :
    map.getOrPut ctxHash maxLoad key = .error .probe ∨ map.getOrPut ctxHash maxLoad key = .error .capacity ∨
      ∃ place map' entry, map.getOrPut ctxHash maxLoad key = .ok (⟨(M.lookup key).isSome, place⟩, map') ∧
        map'.Represents ctxHash used (if (M.lookup key).isSome then M else M.insert key default) ∧
        map'.entries[place]? = some entry ∧ entry.isEmpty = false ∧ entry.key = key ∧
        entry.value = (M.lookup key).getD default := by
  unfold HashMap.getOrPut ensureUnusedCapacity
  rcases h.ensureTotalCapacity hhashes with hensure | ⟨map₁, hensure, h₁⟩
  · rw [hensure]
    exact Or.inr (Or.inl rfl)
  · rw [hensure]
    cases hlookup : M.lookup key with
    | some value =>
      obtain ⟨place, entry, hput, hget, hfull, hkey, hvalue⟩ := h₁.getOrPut_hit hlookup
      exact Or.inr (Or.inr ⟨place, map₁, entry, hput, h₁, hget, hfull, hkey, hvalue⟩)
    | none =>
      rcases h₁.getOrPut_miss hhashes hused hlookup hdefault with hprobe | ⟨place, map', hput, hget, hmap'⟩
      · exact Or.inl hprobe
      · have hfull : (⟨ctxHash key, key, default⟩ : Entry K V).isEmpty = false := by
          rw [Entry.isEmpty, beq_eq_false_iff_ne]
          exact Nat.ne_of_lt (hhashes.lt hused)
        exact Or.inr (Or.inr ⟨place, map', _, hput, hmap', hget, hfull, rfl, rfl⟩)

omit [DecidableEq K] in
theorem hashes_replicate_empty (n : Nat) : hashes (List.replicate n (Entry.empty : Entry K V)) = [] := by
  rw [hashes, map_slot_replicate, List.reduceOption_replicate_none]

/-- A table whose slots are all empty stands for the map that has no key. -/
theorem represents_replicate {n shift : Nat} (hshift : 1 ≤ shift ∧ shift ≤ 63)
    (hsize : n = capacity shift + computeOverflow (capacity shift) shift) :
    (⟨List.replicate n Entry.empty, 0, shift⟩ : HashMap K V).Represents ctxHash used ∅ := by
  refine ⟨hshift, List.length_replicate.trans hsize, ?_, ?_, ?_, ?_, ?_, ?_⟩
  · rw [map_slot_replicate]
    exact Library.Probing.placed_none
  · rw [hashes_replicate_empty]
    exact List.Pairwise.nil
  · intro e he _
    rw [List.eq_of_mem_replicate he]
    rfl
  · intro e he hfull
    rw [List.eq_of_mem_replicate he, isEmpty_empty] at hfull
    cases hfull
  · rw [hashes_replicate_empty]
    rfl
  · intro key value
    rw [Finmap.lookup_empty]
    constructor
    · intro hnone
      cases hnone
    · rintro ⟨e, he, hfull, -⟩
      rw [List.eq_of_mem_replicate he, isEmpty_empty] at hfull
      cases hfull

theorem Represents.clear (h : map.Represents ctxHash used M) : map.clearRetainingCapacity.Represents ctxHash used ∅ := by
  rw [clearRetainingCapacity, List.map_const']
  exact represents_replicate h.shift h.size

/-- `put` is `get_or_put`, and a write where the key is new. -/
theorem put_eq (maxLoad : Nat) (map : HashMap K V) (key : K) (value : V) : map.put ctxHash maxLoad key value =
    match map.getOrPut ctxHash maxLoad key with
    | .error fault => .error fault
    | .ok (result, map) => .ok (if result.foundExisting then map else map.writeValue result.place value) := by
  unfold HashMap.put HashMap.getOrPut
  cases map.ensureUnusedCapacity maxLoad 1 <;> rfl

omit [Inhabited K] in
theorem ite_insert (key : K) (value : V) :
    (if (M.lookup key).isSome then M else M.insert key default).insert key value = M.insert key value := by
  split
  · rfl
  · rw [Finmap.insert_insert]

/-- A call on a map that stands for a finite map gives what the finite map gives, or has no result. -/
theorem Represents.step (h : map.Represents ctxHash used M) (hhashes : Hashes ctxHash used) {maxLoad : Nat} {call : Call K V}
    (huses : call.Uses used) (hfine : call.Fine ctxHash map) :
    map.step ctxHash maxLoad call = .error .probe ∨ map.step ctxHash maxLoad call = .error .capacity ∨
      ∃ map', map.step ctxHash maxLoad call = .ok ((call.onMap ctxHash M).1, map') ∧
        map'.Represents ctxHash used (call.onMap ctxHash M).2 := by
  cases call with
  | put key value =>
    rcases h.getOrPut hhashes huses hfine with hput | hput | ⟨place, map', entry, hput, hmap', hget, hfull, hkey, -⟩
    · exact Or.inl (by rw [HashMap.step, put_eq, hput]; rfl)
    · exact Or.inr (Or.inl (by rw [HashMap.step, put_eq, hput]; rfl))
    · right; right
      rw [HashMap.step, put_eq, hput, Call.onMap]
      cases hfound : (M.lookup key).isSome with
      | true =>
        rw [hfound] at hmap'
        exact ⟨map', rfl, hmap'⟩
      | false =>
        have hwritten := hmap'.writeValue hget hfull value
        rw [hkey, ite_insert] at hwritten
        exact ⟨map'.writeValue place value, rfl, hwritten⟩
  | getOrPut key write =>
    rcases h.getOrPut hhashes huses hfine with hput | hput | ⟨place, map', entry, hput, hmap', hget, hfull, hkey, hvalue⟩
    · exact Or.inl (by rw [HashMap.step, hput]; rfl)
    · exact Or.inr (Or.inl (by rw [HashMap.step, hput]; rfl))
    · right; right
      rw [HashMap.step, hput, Except.map]
      simp only [hget, Option.map_some, hvalue]
      cases write with
      | none => exact ⟨map', rfl, hmap'⟩
      | some value =>
        have hwritten := hmap'.writeValue hget hfull value
        rw [hkey, ite_insert] at hwritten
        exact ⟨map'.writeValue place value, rfl, hwritten⟩
  | get key =>
    rcases h.get hfine with hget | hget
    · exact Or.inr (Or.inr ⟨map, by rw [HashMap.step, hget]; rfl, h⟩)
    · exact Or.inl (by rw [HashMap.step, hget]; rfl)
  | has key =>
    rcases h.has hfine with hhas | hhas
    · exact Or.inr (Or.inr ⟨map, by rw [HashMap.step, hhas]; rfl, h⟩)
    · exact Or.inl (by rw [HashMap.step, hhas]; rfl)
  | hasWithHash keyHash =>
    exact Or.inr (Or.inr ⟨map, by rw [HashMap.step, h.hasWithHash huses]; rfl, h⟩)
  | delete key =>
    rcases h.delete hfine with hdelete | ⟨map', hdelete, hmap'⟩
    · exact Or.inl (by rw [HashMap.step, hdelete]; rfl)
    · exact Or.inr (Or.inr ⟨map', by rw [HashMap.step, hdelete]; rfl, hmap'⟩)
  | clearRetainingCapacity => exact Or.inr (Or.inr ⟨map.clearRetainingCapacity, rfl, h.clear⟩)

theorem represents_initCapacity {k : Nat} (hinit : initCapacity (2 ^ k) = .ok map) : map.Represents ctxHash used ∅ := by
  unfold initCapacity at hinit
  rw [computeShift_two_pow] at hinit
  dsimp only at hinit
  split at hinit
  · rename_i hfits
    rw [Except.ok.injEq] at hinit
    subst hinit
    have hk : k < 64 := (Nat.pow_lt_pow_iff_right (by decide)).mp hfits.1
    have hcap : capacity (63 - k + 1) = 2 ^ k := by
      rw [capacity_eq hfits.2]
      congr 1
      omega
    exact represents_replicate ⟨by omega, hfits.2⟩ (by rw [hcap])
  · cases hinit

/-- A map and a finite map are reached by the same calls, on keys in use, from `init_capacity`. -/
inductive Reached (ctxHash : K → Nat) (maxLoad : Nat) (used : K → Prop) (may : HashMap K V → Call K V → Prop) :
    HashMap K V → (Finmap fun _ : K => V) → Prop where
  | start {map : HashMap K V} (k : Nat) : initCapacity (2 ^ k) = .ok map → Reached ctxHash maxLoad used may map ∅
  | call {map map' : HashMap K V} {M : Finmap fun _ : K => V} {reply : Reply V} (call : Call K V) :
      Reached ctxHash maxLoad used may map M → call.Uses used → may map call →
      map.step ctxHash maxLoad call = .ok (reply, map') → Reached ctxHash maxLoad used may map' (call.onMap ctxHash M).2

theorem Reached.represents {maxLoad : Nat} (hhashes : Hashes ctxHash used)
    (h : Reached ctxHash maxLoad used (fun map call => call.Fine ctxHash map) map M) : map.Represents ctxHash used M := by
  induction h with
  | start k hinit => exact represents_initCapacity hinit
  | call call _ huses hmay hstep ih =>
    rcases ih.step hhashes huses hmay with hprobe | hcapacity | ⟨map₁, hok, hmap₁⟩
    · rw [hprobe] at hstep
      cases hstep
    · rw [hcapacity] at hstep
      cases hstep
    · rw [hok, Except.ok.injEq, Prod.mk.injEq] at hstep
      rw [← hstep.2]
      exact hmap₁

/-- The map is the finite map: `len` is its number of keys, the entries that are not empty are sorted by their
hashes, each lies at its home or behind it with no empty slot between, and a call that comes next has the result
it has on the finite map, unless a probe runs past the table or the capacity does not fit. -/
structure FiniteMap (ctxHash : K → Nat) (maxLoad : Nat) (used : K → Prop) (may : HashMap K V → Call K V → Prop)
    (map : HashMap K V) (M : Finmap fun _ : K => V) : Prop where
  len : map.len = M.keys.card
  sorted : (map.entries.filter fun entry => !entry.isEmpty).Pairwise fun entry entry' => entry.hash < entry'.hash
  home : ∀ i entry, map.entries[i]? = some entry → entry.isEmpty = false → entry.hash >>> map.shift ≤ i ∧
    ∀ j, entry.hash >>> map.shift ≤ j → j < i → ∃ entry', map.entries[j]? = some entry' ∧ entry'.isEmpty = false
  agrees : ∀ call : Call K V, call.Uses used → may map call →
    (∃ map', map.step ctxHash maxLoad call = .ok ((call.onMap ctxHash M).1, map')) ∨
      map.step ctxHash maxLoad call = .error .probe ∨ map.step ctxHash maxLoad call = .error .capacity


omit [Inhabited K] [DecidableEq K] [Inhabited V] in
theorem hashes_eq_map (entries : List (Entry K V)) :
    hashes entries = (entries.filter fun entry => !entry.isEmpty).map (·.hash) := by
  induction entries with
  | nil => rfl
  | cons e entries ih =>
    cases hempty : e.isEmpty with
    | true => rw [hashes_cons_empty hempty, ih, List.filter_cons_of_neg (by simp [hempty])]
    | false => rw [hashes_cons_full hempty, ih, List.filter_cons_of_pos (by simp [hempty]), List.map_cons]

omit [Inhabited V] in
theorem Represents.card_keys (h : map.Represents ctxHash used M) : map.len = M.keys.card := by
  have hsorted := h.sorted
  rw [hashes_eq_map, List.pairwise_map] at hsorted
  have hnodup : ((map.entries.filter fun entry => !entry.isEmpty).map (·.key)).Nodup := by
    refine List.pairwise_map.mpr (hsorted.imp_of_mem fun {e e'} he he' hlt hkey => ?_)
    rw [List.mem_filter, Bool.not_eq_true'] at he he'
    rw [(h.keyed e he.1 he.2).1, (h.keyed e' he'.1 he'.2).1, hkey] at hlt
    exact Nat.lt_irrefl _ hlt
  have hkeys : M.keys = ((map.entries.filter fun entry => !entry.isEmpty).map (·.key)).toFinset := by
    ext key
    rw [h.mem_keys, List.mem_toFinset, List.mem_map]
    simp only [List.mem_filter, Bool.not_eq_true', and_assoc]
  rw [hkeys, List.toFinset_card_of_nodup hnodup, List.length_map, h.len, hashes_eq_map, List.length_map]

/-- In every run of calls that meet the condition, the hash map is a finite map. -/
theorem finiteMap_of_reached {maxLoad : Nat} (hhashes : Hashes ctxHash used)
    (h : Reached ctxHash maxLoad used (fun map call => call.Fine ctxHash map) map M) :
    FiniteMap ctxHash maxLoad used (fun map call => call.Fine ctxHash map) map M := by
  have hmap := h.represents hhashes
  refine ⟨hmap.card_keys, ?_, ?_, ?_⟩
  · have hsorted := hmap.sorted
    rw [hashes_eq_map, List.pairwise_map] at hsorted
    exact hsorted
  · intro i entry hentry hfull
    have hget : (map.entries.map Entry.slot)[i]? = some (some entry.hash) := by
      rw [List.getElem?_map, hentry, Option.map_some, Entry.slot_of_full hfull]
    obtain ⟨hle, hbetween⟩ := hmap.placed.get hget
    rw [Nat.zero_add] at hle
    refine ⟨hle, fun j hhome hj => ?_⟩
    obtain ⟨hash, hslot⟩ := hbetween j (by omega) hj
    rw [List.getElem?_map, Option.map_eq_some_iff] at hslot
    obtain ⟨entry', hentry', hslot⟩ := hslot
    exact ⟨entry', hentry', (Entry.slot_eq_some.mp hslot).1⟩
  · intro call huses hmay
    rcases hmap.step hhashes huses hmay with hprobe | hcapacity | ⟨map', hok, -⟩
    · exact Or.inr (Or.inl hprobe)
    · exact Or.inr (Or.inr hcapacity)
    · exact Or.inl ⟨map', hok⟩

end

/-- Hashes that differ in the first three bits. -/
def firstBits (key : Nat) : Nat := key * 2 ^ 61

theorem hashes_firstBits : Hashes firstBits (· < 8) := by
  constructor
  · intro k k' _ _ heq
    exact Nat.eq_of_mul_eq_mul_right (Nat.two_pow_pos 61) heq
  · intro k hk
    show k * 2 ^ 61 < 2 ^ 64 - 1
    omega

/-- A map of two slots, which grows, and where an entry is taken out and another moves down. -/
theorem finiteMap_of_reached_grown : FiniteMap firstBits 80 (· < 8) (fun map call => call.Fine firstBits map)
    (⟨[.empty, .empty, ⟨5 * 2 ^ 61, 5, 50⟩, .empty, .empty, .empty, .empty, .empty], 1, 62⟩ : HashMap Nat Nat)
    ((Call.delete 4).onMap firstBits ((Call.put 4 40).onMap firstBits ((Call.put 5 50).onMap firstBits ∅).2).2).2 := by
  have hinit : initCapacity (2 ^ 1) =
      .ok (⟨[.empty, .empty, .empty, .empty], 0, 63⟩ : HashMap Nat Nat) := by decide +kernel
  have hput : (⟨[.empty, .empty, .empty, .empty], 0, 63⟩ : HashMap Nat Nat).step firstBits 80 (.put 5 50) =
      .ok (.done, ⟨[.empty, ⟨5 * 2 ^ 61, 5, 50⟩, .empty, .empty], 1, 63⟩) := by decide +kernel
  have hgrow : (⟨[.empty, ⟨5 * 2 ^ 61, 5, 50⟩, .empty, .empty], 1, 63⟩ : HashMap Nat Nat).step firstBits 80 (.put 4 40) =
      .ok (.done, ⟨[.empty, .empty, ⟨4 * 2 ^ 61, 4, 40⟩, ⟨5 * 2 ^ 61, 5, 50⟩, .empty, .empty, .empty, .empty], 2, 62⟩) := by
    decide +kernel
  have hdelete : (⟨[.empty, .empty, ⟨4 * 2 ^ 61, 4, 40⟩, ⟨5 * 2 ^ 61, 5, 50⟩, .empty, .empty, .empty, .empty], 2, 62⟩ :
      HashMap Nat Nat).step firstBits 80 (.delete 4) = .ok (.value (some 40),
        ⟨[.empty, .empty, ⟨5 * 2 ^ 61, 5, 50⟩, .empty, .empty, .empty, .empty, .empty], 1, 62⟩) := by decide +kernel
  have hused : ∀ k < 8, (· < 8) k := fun _ hk => hk
  refine finiteMap_of_reached hashes_firstBits (.call _ (.call _ (.call _ (.start 1 hinit) (hused 5 (by decide)) ?_ hput)
    (hused 4 (by decide)) ?_ hgrow) (hused 4 (by decide)) ?_ hdelete)
  · show (5 : Nat) ≠ 0
    decide
  · show (4 : Nat) ≠ 0
    decide
  · intro hdefault
    cases hdefault

/-- On a map that is new, a key that is the default is deleted from an empty slot, and `len` goes below zero. -/
theorem finiteMap_default : ¬ ∀ (map : HashMap Nat Nat) (M : Finmap fun _ : Nat => Nat),
    Reached firstBits 80 (· < 8) (fun _ _ => True) map M → FiniteMap firstBits 80 (· < 8) (fun _ _ => True) map M := by
  intro hall
  have hinit : initCapacity (2 ^ 1) =
      .ok (⟨[.empty, .empty, .empty, .empty], 0, 63⟩ : HashMap Nat Nat) := by decide +kernel
  have hdelete : (⟨[.empty, .empty, .empty, .empty], 0, 63⟩ : HashMap Nat Nat).step firstBits 80 (.delete 0) =
      .error .underflow := by decide +kernel
  have huses : (Call.delete 0 : Call Nat Nat).Uses (· < 8) := by
    show 0 < 8
    decide
  rcases (hall _ _ (.start 1 hinit)).agrees (.delete 0) huses trivial with ⟨map', hok⟩ | hprobe | hcapacity
  · rw [hdelete] at hok
    cases hok
  · rw [hdelete] at hprobe
    cases hprobe
  · rw [hdelete] at hcapacity
    cases hcapacity

end HashMap
end Funbun.Collections.StaticHashMap
