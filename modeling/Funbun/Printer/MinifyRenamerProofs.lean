import Funbun.Printer.MinifyRenamer
import Funbun.Library.Fuel
import Funbun.Library.Numbering
import Mathlib.Data.Set.Finite.Basic
import Mathlib.Data.Fintype.EquivFin
import Mathlib.Data.List.GetD

/-! Slots get names of their own, which are identifiers. A capital may be reserved. -/
namespace Funbun.Printer
open Bundler Library Fuel Numbering

/-! ### Names from numbers -/

namespace NameMinifier
variable (m : NameMinifier)

theorem length_head : m.head.length = 54 := m.head_perm.length_eq

theorem length_tail : m.tail.length = 64 := m.tail_perm.length_eq

theorem nodup_head : m.head.Nodup := m.head_perm.nodup_iff.mpr nodup_defaultHead

theorem nodup_tail : m.tail.Nodup := m.tail_perm.nodup_iff.mpr nodup_defaultTail

theorem tailOf_eq (fuel i : Nat) : m.tailOf fuel i = (digits 64 fuel i).map fun d => m.tail.getD d 0 := by
  induction fuel generalizing i with
  | zero => rfl
  | succ fuel ih =>
    cases i with
    | zero => rfl
    | succ i => rw [tailOf, digits, List.map_cons, ih]

/-- The number a name came from. -/
def numberOf : Name → Nat
  | [] => 0
  | first :: rest => m.head.idxOf first + 54 * value 64 (rest.map m.tail.idxOf)

theorem idxOf_getD {l : List UInt8} (hl : l.Nodup) {i : Nat} (hi : i < l.length) : l.idxOf (l.getD i 0) = i := by
  rw [List.getD_eq_getElem _ _ hi]
  exact hl.idxOf_getElem i hi

theorem numberOf_numberToMinifiedName (i : Nat) : m.numberOf (m.numberToMinifiedName i) = i := by
  have hhead : i % 54 < m.head.length := by
    rw [length_head]
    exact Nat.mod_lt _ (by decide)
  have hdigits : (m.tailOf (i / 54) (i / 54)).map m.tail.idxOf = digits 64 (i / 54) (i / 54) := by
    rw [tailOf_eq, List.map_map]
    conv_rhs => rw [← List.map_id (digits 64 (i / 54) (i / 54))]
    apply List.map_congr_left
    intro d hd
    exact idxOf_getD m.nodup_tail (m.length_tail ▸ digits_lt (by decide) _ _ d hd)
  rw [numberToMinifiedName, numberOf, hdigits, value_digits 64 (Nat.le_refl _), idxOf_getD m.nodup_head hhead]
  exact Nat.mod_add_div i 54

/-- Different numbers give different names. -/
theorem numberToMinifiedName_injective : Function.Injective m.numberToMinifiedName :=
  Function.LeftInverse.injective m.numberOf_numberToMinifiedName

theorem head_mem (i : Nat) : m.head.getD (i % 54) 0 ∈ defaultHead := by
  have hhead : i % 54 < m.head.length := by
    rw [length_head]
    exact Nat.mod_lt _ (by decide)
  rw [List.getD_eq_getElem _ _ hhead]
  exact m.head_perm.mem_iff.mp (List.getElem_mem hhead)

theorem tailOf_mem (fuel i : Nat) : ∀ char ∈ m.tailOf fuel i, char ∈ defaultTail := by
  intro char hchar
  rw [tailOf_eq] at hchar
  obtain ⟨d, hd, rfl⟩ := List.mem_map.mp hchar
  have htail : d < m.tail.length := m.length_tail ▸ digits_lt (by decide) _ _ d hd
  rw [List.getD_eq_getElem _ _ htail]
  exact m.tail_perm.mem_iff.mp (List.getElem_mem htail)

theorem isLatin1Start_of_mem : ∀ char ∈ defaultHead, isLatin1Start char = true := by decide +kernel

theorem isLatin1Part_of_mem :
    ∀ char ∈ defaultTail, (48 ≤ char && char ≤ 57 || isLatin1Start char) = true := by decide +kernel

/-- Every name is an identifier. -/
theorem isLatin1Identifier_numberToMinifiedName (i : Nat) : isLatin1Identifier (m.numberToMinifiedName i) = true := by
  rw [numberToMinifiedName, isLatin1Identifier, Bool.and_eq_true, List.all_eq_true]
  exact ⟨isLatin1Start_of_mem _ (m.head_mem i), fun char hchar => isLatin1Part_of_mem char (m.tailOf_mem _ _ char hchar)⟩

/-- Names are not used up. -/
theorem exists_notMem (names : Finset Name) (n : Nat) : ∃ k, n ≤ k ∧ m.numberToMinifiedName k ∉ names := by
  have hinjective : Function.Injective fun i => m.numberToMinifiedName (n + i) := fun i j h =>
    Nat.add_left_cancel (m.numberToMinifiedName_injective h)
  obtain ⟨name, ⟨i, rfl⟩, hname⟩ := (Set.infinite_range_of_injective hinjective).exists_notMem_finset names
  exact ⟨n + i, Nat.le_add_right n i, hname⟩

/-- Each round through `head` has a capital. -/
theorem exists_notLower (n : Nat) : ∃ k, n ≤ k ∧ isLower ((m.numberToMinifiedName k).getD 0 0) = false := by
  have hmem : (95 : UInt8) ∈ m.head := m.head_perm.mem_iff.mpr (by decide +kernel)
  obtain ⟨j, hj, hget⟩ := List.getElem_of_mem hmem
  refine ⟨54 * n + j, by omega, ?_⟩
  have hmod : (54 * n + j) % 54 = j := by
    rw [Nat.mul_add_mod, Nat.mod_eq_of_lt (m.length_head ▸ hj)]
  rw [numberToMinifiedName, List.getD_cons_zero, hmod, List.getD_eq_getElem _ _ hj, hget]
  rfl

end NameMinifier

/-! ### Loops over names -/

namespace MinifyRenamer
variable {m : NameMinifier}

/-- The loop stops at the first name that may be taken. -/
theorem skip_spec {p : Name → Bool} {n k : Nat} (hk : n ≤ k) (hfree : p (m.numberToMinifiedName k) = false) :
    ∃ i, IsLeast {i | n ≤ i ∧ p (m.numberToMinifiedName i) = false} i ∧
      Settles (fun fuel => skip m p fuel (m.numberToMinifiedName n, n + 1)) (m.numberToMinifiedName i, i + 1) := by
  obtain ⟨d, rfl⟩ := Nat.exists_eq_add_of_le hk
  induction d generalizing n with
  | zero =>
    refine ⟨n, ⟨⟨Nat.le_refl n, hfree⟩, fun i hi => hi.1⟩, .of_succ (.of_forall fun fuel => ?_)⟩
    exact if_neg (Bool.eq_false_iff.mp hfree)
  | succ d ih =>
    by_cases hp : p (m.numberToMinifiedName n) = true
    · obtain ⟨i, ⟨⟨hle, hi⟩, hleast⟩, hsettles⟩ := ih (n := n + 1) (Nat.le_add_right _ _)
        (by rwa [Nat.add_assoc, Nat.add_comm 1])
      refine ⟨i, ⟨⟨Nat.le_of_succ_le hle, hi⟩, fun j hj => ?_⟩, .of_succ ?_⟩
      · refine hleast ⟨Nat.lt_of_le_of_ne hj.1 ?_, hj.2⟩
        rintro rfl
        exact Bool.false_ne_true (hj.2.symm.trans hp)
      · have hturn : ∀ fuel, skip m p (fuel + 1) (m.numberToMinifiedName n, n + 1) =
            skip m p fuel (m.numberToMinifiedName (n + 1), n + 1 + 1) := fun fuel => if_pos hp
        simp only [hturn]
        exact hsettles
    · refine ⟨n, ⟨⟨Nat.le_refl n, Bool.eq_false_iff.mpr hp⟩, fun i hi => hi.1⟩, .of_succ (.of_forall fun fuel => ?_)⟩
      exact if_neg hp

/-- Names that are never given in a namespace. -/
def taken (r : MinifyRenamer) (ns : SlotNamespace) (name : Name) : Bool :=
  match ns with
  | .default => name ∈ r.reservedNames
  | .label => keyword name
  | .mustNotBeRenamed | .privateName | .mangledProp => false

/-- A slot that needs a capital cannot have the name. -/
def unfit (ns : SlotNamespace) (capital : Bool) (name : Name) : Bool :=
  ns = .default && capital && isLower (name.getD 0 0)

def written (ns : SlotNamespace) (name : Name) : Name := if ns = .privateName then 35 :: name else name

/-- The number a slot gets: from the least one that is not taken on, the least that fits. -/
def Picks (r : MinifyRenamer) (m : NameMinifier) (ns : SlotNamespace) (capital : Bool) (next k : Nat) : Prop :=
  ∃ free, IsLeast {i | next ≤ i ∧ r.taken ns (m.numberToMinifiedName i) = false} free ∧
    IsLeast {i | free ≤ i ∧ unfit ns capital (m.numberToMinifiedName i) = false} k

/-- The number a slot should get: the least one that is not taken and fits. -/
def Fits (r : MinifyRenamer) (m : NameMinifier) (ns : SlotNamespace) (capital : Bool) (next k : Nat) : Prop :=
  IsLeast {i | next ≤ i ∧ r.taken ns (m.numberToMinifiedName i) = false ∧
    unfit ns capital (m.numberToMinifiedName i) = false} k

variable {r : MinifyRenamer} {ns : SlotNamespace} {capital : Bool} {next k k' : Nat}

theorem Picks.unique (h : r.Picks m ns capital next k) (h' : r.Picks m ns capital next k') : k = k' := by
  obtain ⟨free, hfree, hk⟩ := h
  obtain ⟨free', hfree', hk'⟩ := h'
  obtain rfl := hfree.unique hfree'
  exact hk.unique hk'

theorem Picks.le (h : r.Picks m ns capital next k) : next ≤ k := by
  obtain ⟨free, hfree, hk⟩ := h
  exact Nat.le_trans hfree.1.1 hk.1.1

theorem Picks.fits_iff (h : r.Picks m ns capital next k) (hgood : r.taken ns (m.numberToMinifiedName k) = false) :
    r.Fits m ns capital next k' ↔ k' = k := by
  have hfits : r.Fits m ns capital next k := by
    obtain ⟨free, hfree, hk⟩ := h
    exact ⟨⟨Nat.le_trans hfree.1.1 hk.1.1, hgood, hk.1.2⟩, fun i hi => hk.2 ⟨hfree.2 ⟨hi.1, hi.2.1⟩, hi.2.2⟩⟩
  exact ⟨fun h' => h'.unique hfits, fun heq => heq ▸ hfits⟩

theorem picks_of_settled {free : Nat} (h : IsLeast {i | next ≤ i ∧ r.taken ns (m.numberToMinifiedName i) = false} free)
    (hfit : unfit ns capital (m.numberToMinifiedName free) = false) : r.Picks m ns capital next free :=
  ⟨free, h, ⟨Nat.le_refl free, hfit⟩, fun _ hi => hi.1⟩

/-- A slot gets the name of the least number that suits it. -/
theorem nextSlotName_spec (r : MinifyRenamer) (m : NameMinifier) (ns : SlotNamespace) (slot : SymbolSlot) (next : Nat) :
    ∃ k, r.Picks m ns slot.needsCapitalForJsx next k ∧
      Settles (fun fuel => r.nextSlotName m fuel ns slot next) (written ns (m.numberToMinifiedName k), k + 1) := by
  have hnow : IsLeast {i | next ≤ i ∧ false = false} next := ⟨⟨Nat.le_refl next, rfl⟩, fun _ hi => hi.1⟩
  cases ns with
  | default =>
    obtain ⟨i, hi, hname⟩ := m.exists_notMem r.reservedNames next
    obtain ⟨free, hfree, hsettles⟩ := skip_spec hi (p := fun name => name ∈ r.reservedNames) (decide_eq_false hname)
    cases hcapital : slot.needsCapitalForJsx with
    | false =>
      refine ⟨free, picks_of_settled hfree rfl, hsettles.bind (.of_forall fun fuel => ?_)⟩
      rw [hcapital]
      rfl
    | true =>
      obtain ⟨j, hj, hcap⟩ := m.exists_notLower free
      obtain ⟨k, hk, hsettles'⟩ := skip_spec hj (p := fun name => isLower (name.getD 0 0)) hcap
      refine ⟨k, ⟨free, hfree, hk⟩, hsettles.bind ?_⟩
      simp only [hcapital]
      exact hsettles'
  | label =>
    obtain ⟨i, hi, hname⟩ := m.exists_notMem keywords.toFinset next
    rw [List.mem_toFinset] at hname
    obtain ⟨k, hk, hsettles⟩ := skip_spec hi (p := keyword) (decide_eq_false hname)
    exact ⟨k, picks_of_settled hk rfl, hsettles⟩
  | privateName | mangledProp | mustNotBeRenamed =>
    exact ⟨next, picks_of_settled hnow rfl, .of_forall fun fuel => rfl⟩

end MinifyRenamer

/-! ### The slots of a namespace -/

/-- What the order of slots and their names look at. -/
def SymbolSlot.key (slot : SymbolSlot) : Nat × Bool := (slot.count, slot.needsCapitalForJsx)

def SymbolSlot.rename (ns : SlotNamespace) (name : Name) (slot : SymbolSlot) : SymbolSlot :=
  {slot with name := MinifyRenamer.written ns name}

theorem map_slot_slotsAndCounts (slots : List SymbolSlot) :
    (slotsAndCounts slots).map SlotAndCount.slot = List.range slots.length := by
  rw [slotsAndCounts, List.map_map, List.range_eq_range', ← List.zipIdx_map_snd 0 slots]
  rfl

theorem perm_sortedSlots (slots : List SymbolSlot) : (sortedSlots slots).Perm (slotsAndCounts slots) :=
  List.perm_insertionSort _ _

theorem perm_slot_sortedSlots (slots : List SymbolSlot) :
    ((sortedSlots slots).map SlotAndCount.slot).Perm (List.range slots.length) :=
  map_slot_slotsAndCounts slots ▸ (perm_sortedSlots slots).map _

theorem sortedSlots_congr {slots slots' : List SymbolSlot} (h : slots'.map SymbolSlot.key = slots.map SymbolSlot.key) :
    sortedSlots slots' = sortedSlots slots := by
  have hkeys : ∀ slots, slotsAndCounts slots =
      ((slots.map SymbolSlot.key).zipIdx.map fun (key, i) => ⟨i, key.1⟩) := fun slots => by
    rw [List.zipIdx_map, List.map_map]
    rfl
  rw [sortedSlots, sortedSlots, hkeys, hkeys, h]

theorem needsCapital_congr {slots slots' : List SymbolSlot} (h : slots'.map SymbolSlot.key = slots.map SymbolSlot.key)
    (i : Nat) : (slots'.getD i .init).needsCapitalForJsx = (slots.getD i .init).needsCapitalForJsx := by
  have hkeys : ∀ slots : List SymbolSlot,
      (slots.getD i .init).needsCapitalForJsx = ((slots.map SymbolSlot.key).getD i (0, false)).2 := fun slots => by
    rw [List.getD_eq_getElem?_getD, List.getD_eq_getElem?_getD, List.getElem?_map]
    cases slots[i]? <;> rfl
  rw [hkeys, hkeys, h]

namespace MinifyRenamer
variable {m : NameMinifier} {r : MinifyRenamer} {ns : SlotNamespace}

/-- What a slot draws. -/
def draws (r : MinifyRenamer) (m : NameMinifier) (ns : SlotNamespace) (slots : List SymbolSlot) (data : SlotAndCount) :
    Nat → Nat → Prop :=
  r.Picks m ns (slots.getD data.slot .init).needsCapitalForJsx

theorem draws_congr {other : MinifyRenamer} (hreserved : other.reservedNames = r.reservedNames)
    (slots : List SymbolSlot) : other.draws m ns slots = r.draws m ns slots := by
  have htaken : other.taken ns = r.taken ns := by
    funext name
    unfold taken
    rw [hreserved]
  funext data next k
  unfold draws Picks
  rw [htaken]

theorem foldlM_nameSlot (r : MinifyRenamer) (m : NameMinifier) (ns : SlotNamespace) (slots : List SymbolSlot)
    (sorted : List SlotAndCount) (hnodup : (sorted.map SlotAndCount.slot).Nodup) (s : List SymbolSlot) (next : Nat)
    (hflags : ∀ i, (s.getD i .init).needsCapitalForJsx = (slots.getD i .init).needsCapitalForJsx) :
    ∃ numbers last s', Drawn (r.draws m ns slots) next sorted numbers last ∧
      Settles (fun fuel => sorted.foldlM (r.nameSlot m fuel ns) (s, next)) (s', last) ∧ s'.length = s.length ∧
      (∀ i, i ∉ sorted.map SlotAndCount.slot → s'[i]? = s[i]?) ∧
      ∀ data k, (data, k) ∈ sorted.zip numbers →
        s'[data.slot]? = s[data.slot]?.map (.rename ns (m.numberToMinifiedName k)) := by
  induction sorted generalizing s next with
  | nil => exact ⟨[], next, s, .nil, .of_forall fun fuel => rfl, rfl, fun _ _ => rfl, fun _ _ hmem => nomatch hmem⟩
  | cons data sorted ih =>
    rw [List.map_cons, List.nodup_cons] at hnodup
    obtain ⟨k, hpicks, hname⟩ := nextSlotName_spec r m ns (s.getD data.slot .init) next
    rw [hflags] at hpicks
    generalize hmid : s.modify data.slot (.rename ns (m.numberToMinifiedName k)) = mid
    have hother : ∀ i, i ≠ data.slot → mid[i]? = s[i]? := fun i hne => by
      rw [← hmid, List.getElem?_modify_ne _ _ hne.symm]
    have hown : mid[data.slot]? = s[data.slot]?.map (.rename ns (m.numberToMinifiedName k)) := by
      rw [← hmid, List.getElem?_modify_eq]
      rfl
    have hmidFlags : ∀ i, (mid.getD i .init).needsCapitalForJsx = (slots.getD i .init).needsCapitalForJsx := by
      intro i
      rw [← hflags, List.getD_eq_getElem?_getD, List.getD_eq_getElem?_getD]
      by_cases hi : i = data.slot
      · rw [hi, hown]
        cases s[data.slot]? <;> rfl
      · rw [hother i hi]
    obtain ⟨numbers, last, s', hdrawn, hsettles, hlength, hkept, hnamed⟩ := ih hnodup.2 mid (k + 1) hmidFlags
    refine ⟨k :: numbers, last, s', .cons hpicks hdrawn, ?_, ?_, fun i hi => ?_, fun data' k' hmem => ?_⟩
    · have hstep : Settles (fun fuel => r.nameSlot m fuel ns (s, next) data) (mid, k + 1) := by
        subst hmid
        exact hname.map _
      exact hstep.bind hsettles
    · rw [hlength, ← hmid, List.length_modify]
    · rw [List.map_cons, List.mem_cons, not_or] at hi
      rw [hkept i hi.2, hother i hi.1]
    · rw [List.zip_cons_cons, List.mem_cons] at hmem
      rcases hmem with heq | hmem
      · obtain ⟨rfl, rfl⟩ := Prod.mk.inj heq
        rw [hkept _ hnodup.1, hown]
      · have hne : data'.slot ≠ data.slot := fun heq =>
          hnodup.1 (heq ▸ List.mem_map_of_mem (List.of_mem_zip hmem).1)
        rw [hnamed data' k' hmem, hother _ hne]

/-- The slots of a namespace after they were named with these numbers. -/
structure Named (r : MinifyRenamer) (m : NameMinifier) (ns : SlotNamespace) (slots slots' : List SymbolSlot)
    (numbers : List Nat) : Prop where
  drawn : ∃ last, Drawn (r.draws m ns slots) 0 (sortedSlots slots) numbers last
  length_eq : slots'.length = slots.length
  get : ∀ data k, (data, k) ∈ (sortedSlots slots).zip numbers →
    slots'[data.slot]? = slots[data.slot]?.map (.rename ns (m.numberToMinifiedName k))

theorem nameSlots_spec (r : MinifyRenamer) (m : NameMinifier) (ns : SlotNamespace) :
    ∃ numbers slots', Settles (fun fuel => r.nameSlots m fuel ns) slots' ∧
      Named r m ns (r.slots ns) slots' numbers := by
  have hnodup := (perm_slot_sortedSlots (r.slots ns)).nodup_iff.mpr List.nodup_range
  obtain ⟨numbers, last, slots', hdrawn, hsettles, hlength, -, hnamed⟩ :=
    foldlM_nameSlot r m ns (r.slots ns) _ hnodup (r.slots ns) 0 fun _ => rfl
  exact ⟨numbers, slots', hsettles.map Prod.fst, ⟨last, hdrawn⟩, hlength, hnamed⟩

namespace Named
variable {slots slots' : List SymbolSlot} {numbers : List Nat}

theorem nodup (h : Named r m ns slots slots' numbers) : numbers.Nodup := by
  obtain ⟨last, hdrawn⟩ := h.drawn
  exact (hdrawn.increasing fun _ _ _ hpicks => hpicks.le).imp fun hlt => Nat.ne_of_lt hlt

/-- Each slot has a number. -/
theorem exists_number (h : Named r m ns slots slots' numbers) {i : Nat} (hi : i < slots.length) :
    ∃ data k, (data, k) ∈ (sortedSlots slots).zip numbers ∧ data.slot = i := by
  obtain ⟨last, hdrawn⟩ := h.drawn
  obtain ⟨data, hdata, hslot⟩ := List.mem_map.mp ((perm_slot_sortedSlots slots).mem_iff.mpr (List.mem_range.mpr hi))
  have hzip : data ∈ ((sortedSlots slots).zip numbers).map Prod.fst := by
    rwa [List.map_fst_zip hdrawn.length_eq.ge]
  obtain ⟨⟨data', k⟩, hmem, rfl⟩ := List.mem_map.mp hzip
  exact ⟨data', k, hmem, hslot⟩

theorem data_unique (h : Named r m ns slots slots' numbers) {data data' : SlotAndCount} {k : Nat}
    (hmem : (data, k) ∈ (sortedSlots slots).zip numbers) (hmem' : (data', k) ∈ (sortedSlots slots).zip numbers) :
    data = data' := by
  obtain ⟨last, hdrawn⟩ := h.drawn
  have hnodup : (((sortedSlots slots).zip numbers).map Prod.snd).Nodup := by
    rw [List.map_snd_zip hdrawn.length_eq.le]
    exact h.nodup
  exact congrArg Prod.fst (List.inj_on_of_nodup_map hnodup hmem hmem' rfl)

theorem getElem?_eq (h : Named r m ns slots slots' numbers) {i : Nat} {slot' : SymbolSlot} (hget : slots'[i]? = some slot') :
    ∃ data k slot, (data, k) ∈ (sortedSlots slots).zip numbers ∧ data.slot = i ∧ slots[i]? = some slot ∧
      slot' = slot.rename ns (m.numberToMinifiedName k) := by
  have hi : i < slots.length := by
    rw [← h.length_eq]
    exact (List.getElem?_eq_some_iff.mp hget).1
  obtain ⟨data, k, hmem, rfl⟩ := h.exists_number hi
  rw [h.get data k hmem] at hget
  obtain ⟨slot, hslot, rfl⟩ := Option.map_eq_some_iff.mp hget
  exact ⟨data, k, slot, hmem, rfl, hslot, rfl⟩

/-- A slot has the name of a number that it drew. -/
theorem exists_picks (h : Named r m ns slots slots' numbers) {slot' : SymbolSlot} (hmem : slot' ∈ slots') :
    ∃ k ∈ numbers, ∃ next, r.Picks m ns slot'.needsCapitalForJsx next k ∧
      slot'.name = written ns (m.numberToMinifiedName k) := by
  obtain ⟨i, hget⟩ := List.mem_iff_getElem?.mp hmem
  obtain ⟨data, k, slot, hzip, rfl, hslot, rfl⟩ := h.getElem?_eq hget
  obtain ⟨last, hdrawn⟩ := h.drawn
  obtain ⟨next, hpicks⟩ := hdrawn.exists_draw hzip
  rw [draws, List.getD_eq_getElem?_getD, hslot] at hpicks
  exact ⟨k, (List.of_mem_zip hzip).2, next, hpicks, rfl⟩

/-- A number that was drawn names a slot. -/
theorem exists_slot (h : Named r m ns slots slots' numbers) {k : Nat} (hk : k ∈ numbers) :
    ∃ slot' ∈ slots', slot'.name = written ns (m.numberToMinifiedName k) := by
  obtain ⟨last, hdrawn⟩ := h.drawn
  have hzip : k ∈ ((sortedSlots slots).zip numbers).map Prod.snd := by
    rwa [List.map_snd_zip hdrawn.length_eq.le]
  obtain ⟨⟨data, k'⟩, hmem, rfl⟩ := List.mem_map.mp hzip
  have hslot : data.slot < slots.length := List.mem_range.mp
    ((perm_slot_sortedSlots slots).mem_iff.mp (List.mem_map_of_mem (List.of_mem_zip hmem).1))
  have hget := h.get data k' hmem
  rw [List.getElem?_eq_getElem hslot, Option.map_some] at hget
  exact ⟨_, List.mem_of_getElem? hget, rfl⟩

theorem written_injective (ns : SlotNamespace) : Function.Injective (written ns) := by
  intro name name' h
  unfold written at h
  split at h
  · exact (List.cons.inj h).2
  · exact h

/-- The names of a namespace differ. -/
theorem nodup_names (h : Named r m ns slots slots' numbers) : (slots'.map SymbolSlot.name).Nodup := by
  rw [List.nodup_iff_getElem?_ne_getElem?]
  intro i j hlt hj heq
  rw [List.length_map] at hj
  obtain ⟨a, ha⟩ : ∃ a, slots'[i]? = some a := ⟨_, List.getElem?_eq_getElem (Nat.lt_trans hlt hj)⟩
  obtain ⟨b, hb⟩ : ∃ b, slots'[j]? = some b := ⟨_, List.getElem?_eq_getElem hj⟩
  rw [List.getElem?_map, List.getElem?_map, ha, hb, Option.map_some, Option.map_some, Option.some_inj] at heq
  obtain ⟨data, k, slot, hmem, rfl, -, rfl⟩ := h.getElem?_eq ha
  obtain ⟨data', k', slot', hmem', rfl, -, rfl⟩ := h.getElem?_eq hb
  obtain rfl := m.numberToMinifiedName_injective (written_injective ns heq)
  exact Nat.ne_of_lt hlt (congrArg SlotAndCount.slot (h.data_unique hmem hmem'))

theorem map_key (h : Named r m ns slots slots' numbers) : slots'.map SymbolSlot.key = slots.map SymbolSlot.key := by
  apply List.ext_getElem?
  intro i
  rw [List.getElem?_map, List.getElem?_map]
  by_cases hi : i < slots.length
  · obtain ⟨data, k, hmem, rfl⟩ := h.exists_number hi
    rw [h.get data k hmem, Option.map_map]
    rfl
  · rw [List.getElem?_eq_none (Nat.le_of_not_lt hi), List.getElem?_eq_none (h.length_eq ▸ Nat.le_of_not_lt hi)]

theorem of_reserved (h : Named r m ns slots slots' numbers) {other : MinifyRenamer}
    (hreserved : r.reservedNames = other.reservedNames) : Named other m ns slots slots' numbers where
  drawn := draws_congr hreserved slots ▸ h.drawn
  length_eq := h.length_eq
  get := h.get

/-- The same counts and flags give the same names, whatever the slots were called before. -/
theorem unique (h : Named r m ns slots slots' numbers) {other : MinifyRenamer} {before after : List SymbolSlot}
    {numbers' : List Nat} (hreserved : other.reservedNames = r.reservedNames)
    (hkeys : before.map SymbolSlot.key = slots.map SymbolSlot.key) (h' : Named other m ns before after numbers') :
    after = slots' := by
  obtain ⟨last, hdrawn⟩ := h.drawn
  obtain ⟨last', hdrawn'⟩ := h'.drawn
  have hdraws : other.draws m ns before = r.draws m ns slots := by
    rw [draws_congr hreserved]
    funext data
    rw [draws, draws, needsCapital_congr hkeys]
  have hlength : before.length = slots.length := by
    simpa using congrArg List.length hkeys
  rw [hdraws, sortedSlots_congr hkeys] at hdrawn'
  obtain rfl := hdrawn.unique (fun _ _ _ _ hpicks hpicks' => hpicks.unique hpicks') hdrawn'
  apply List.ext_getElem?
  intro i
  by_cases hi : i < slots.length
  · obtain ⟨data, k, hmem, rfl⟩ := h.exists_number hi
    rw [h.get data k hmem, h'.get data k (sortedSlots_congr hkeys ▸ hmem)]
    have hkey := congrArg (fun keys => keys[data.slot]?) hkeys
    simp only [List.getElem?_map] at hkey
    rcases hslot : slots[data.slot]? with - | slot
    · rw [hslot] at hkey
      rw [Option.map_eq_none_iff.mp hkey]
    · rw [hslot] at hkey
      obtain ⟨slot', hslot', hkey⟩ := Option.map_eq_some_iff.mp hkey
      rw [hslot', Option.map_some, Option.map_some]
      obtain ⟨hcount, hflag⟩ := Prod.mk.inj hkey
      unfold SymbolSlot.rename
      rw [hcount, hflag]
  · have hle := Nat.le_of_not_lt hi
    rw [List.getElem?_eq_none (by rwa [h'.length_eq, hlength]), List.getElem?_eq_none (by rwa [h.length_eq])]

end Named

/-! ### All namespaces -/

theorem foldlM_nameSlots (m : NameMinifier) (namespaces : List SlotNamespace) (hnodup : namespaces.Nodup)
    (r : MinifyRenamer) :
    ∃ r', Settles (fun fuel => namespaces.foldlM (fun (r : MinifyRenamer) ns => (r.nameSlots m fuel ns).map fun slots =>
        ({r with slots := Function.update r.slots ns slots} : MinifyRenamer)) r) r' ∧
      r'.reservedNames = r.reservedNames ∧ (∀ ns, ns ∉ namespaces → r'.slots ns = r.slots ns) ∧
      ∀ ns ∈ namespaces, ∃ numbers, Named r m ns (r.slots ns) (r'.slots ns) numbers := by
  induction namespaces generalizing r with
  | nil => exact ⟨r, .of_forall fun fuel => rfl, rfl, fun _ _ => rfl, fun ns hns => nomatch hns⟩
  | cons ns namespaces ih =>
    rw [List.nodup_cons] at hnodup
    obtain ⟨numbers, slots, hsettles, hnamed⟩ := nameSlots_spec r m ns
    obtain ⟨r', hrest, hreserved, hkept, hall⟩ := ih hnodup.2 {r with slots := Function.update r.slots ns slots}
    refine ⟨r', (hsettles.map _).bind hrest, hreserved, fun ns' hns' => ?_, fun ns' hns' => ?_⟩
    · rw [List.mem_cons, not_or] at hns'
      rw [hkept ns' hns'.2]
      exact Function.update_of_ne hns'.1 ..
    · by_cases heq : ns' = ns
      · subst heq
        refine ⟨numbers, ?_⟩
        rw [hkept ns' hnodup.1]
        show Named r m ns' (r.slots ns') (Function.update r.slots ns' slots ns') numbers
        rwa [Function.update_self]
      · obtain ⟨numbers', hnamed'⟩ := hall ns' ((List.mem_cons.mp hns').resolve_left heq)
        refine ⟨numbers', ?_⟩
        have hslots : Function.update r.slots ns slots ns' = r.slots ns' := Function.update_of_ne heq ..
        rw [← hslots]
        exact hnamed'.of_reserved rfl

/-- Names are distinct in each namespace and may stand where their slots do. -/
structure Legal (r : MinifyRenamer) : Prop where
  distinct : ∀ ns ∈ slotNamespaces, ((r.slots ns).map SymbolSlot.name).Nodup
  unreserved : ∀ slot ∈ r.slots .default, slot.name ∉ r.reservedNames
  capital : ∀ slot ∈ r.slots .default, slot.needsCapitalForJsx = true → isLower (slot.name.getD 0 0) = false
  label : ∀ slot ∈ r.slots .label, keyword slot.name = false
  identifier : ∀ ns ∈ slotNamespaces, ∀ slot ∈ r.slots ns, ∃ name,
    isLatin1Identifier name = true ∧ slot.name = if ns = .privateName then 35 :: name else name

/-- A slot that needs a capital does not pass by a reserved one's name. Before it, each slot is due the least number
whose name is not reserved and has the capital that the slot needs. -/
def Spared (r : MinifyRenamer) (m : NameMinifier) : Prop :=
  ∀ before data after numbers next free k, sortedSlots (r.slots .default) = before ++ data :: after →
    ((r.slots .default).getD data.slot .init).needsCapitalForJsx = true →
    Drawn (fun data => r.Fits m .default ((r.slots .default).getD data.slot .init).needsCapitalForJsx) 0 before numbers next →
    IsLeast {i | next ≤ i ∧ m.numberToMinifiedName i ∉ r.reservedNames} free →
    IsLeast {i | free ≤ i ∧ isLower ((m.numberToMinifiedName i).getD 0 0) = false} k →
    m.numberToMinifiedName k ∉ r.reservedNames

/-- Where a capital does not matter, nothing that is taken is picked. -/
theorem Picks.not_taken {capital : Bool} {next k : Nat} (h : r.Picks m ns capital next k)
    (hfit : ∀ name, unfit ns capital name = false) : r.taken ns (m.numberToMinifiedName k) = false := by
  obtain ⟨free, hfree, hk⟩ := h
  have hle : k ≤ free := hk.2 ⟨Nat.le_refl free, hfit _⟩
  obtain rfl := Nat.le_antisymm hle hk.1.1
  exact hfree.1.2

theorem forall_not_taken_iff {slots' : List SymbolSlot} {numbers : List Nat}
    (h : Named r m .default (r.slots .default) slots' numbers) :
    (∀ k ∈ numbers, r.taken .default (m.numberToMinifiedName k) = false) ↔ r.Spared m := by
  have hset : ∀ next, {i | next ≤ i ∧ r.taken .default (m.numberToMinifiedName i) = false} =
      {i | next ≤ i ∧ m.numberToMinifiedName i ∉ r.reservedNames} := fun next => by
    ext i
    exact and_congr_right fun _ => decide_eq_false_iff_not
  obtain ⟨last, hdrawn⟩ := h.drawn
  rw [hdrawn.forall_good (fun k => r.taken .default (m.numberToMinifiedName k) = false)
    (fun _ _ _ _ hpicks hpicks' => hpicks.unique hpicks') fun data next k hpicks hgood k' => hpicks.fits_iff hgood]
  constructor
  · intro hall before data after numbers next free k hsorted hcapital hbefore hfree hk
    have hpicks : r.draws m .default (r.slots .default) data next k := by
      rw [draws, hcapital]
      exact ⟨free, hset next ▸ hfree, hk⟩
    exact of_decide_eq_false (hall before data after numbers next k hsorted hbefore hpicks)
  · intro hspared before data after numbers next k hsorted hbefore hpicks
    cases hcapital : ((r.slots .default).getD data.slot .init).needsCapitalForJsx with
    | false =>
      rw [draws, hcapital] at hpicks
      exact hpicks.not_taken fun name => rfl
    | true =>
      rw [draws, hcapital] at hpicks
      obtain ⟨free, hfree, hk⟩ := hpicks
      exact decide_eq_false
        (hspared before data after numbers next free k hsorted hcapital hbefore (hset next ▸ hfree) hk)

/-- The names are as they should be exactly if no search for a capital meets a reserved one. -/
theorem legal_iff {r' : MinifyRenamer} (hreserved : r'.reservedNames = r.reservedNames)
    (hall : ∀ ns ∈ slotNamespaces, ∃ numbers, Named r m ns (r.slots ns) (r'.slots ns) numbers) :
    r'.Legal ↔ r.Spared m := by
  obtain ⟨numbers, hdefault⟩ := hall .default (by decide)
  rw [← forall_not_taken_iff hdefault]
  constructor
  · intro hlegal k hk
    obtain ⟨slot, hslot, hname⟩ := hdefault.exists_slot hk
    have hfree := hlegal.unreserved slot hslot
    rw [hname, hreserved] at hfree
    exact decide_eq_false hfree
  · intro hfree
    refine ⟨fun ns hns => ?_, fun slot hslot => ?_, fun slot hslot hcapital => ?_, fun slot hslot => ?_,
      fun ns hns slot hslot => ?_⟩
    · obtain ⟨numbers', hnamed⟩ := hall ns hns
      exact hnamed.nodup_names
    · obtain ⟨k, hk, next, hpicks, hname⟩ := hdefault.exists_picks hslot
      rw [hname, hreserved]
      exact of_decide_eq_false (hfree k hk)
    · obtain ⟨k, hk, next, ⟨free, -, hleast⟩, hname⟩ := hdefault.exists_picks hslot
      rw [hcapital] at hleast
      rw [hname]
      exact hleast.1.2
    · obtain ⟨numbers', hnamed⟩ := hall .label (by decide)
      obtain ⟨k, hk, next, hpicks, hname⟩ := hnamed.exists_picks hslot
      rw [hname]
      exact hpicks.not_taken fun name => rfl
    · obtain ⟨numbers', hnamed⟩ := hall ns hns
      obtain ⟨k, hk, next, hpicks, hname⟩ := hnamed.exists_picks hslot
      exact ⟨_, m.isLatin1Identifier_numberToMinifiedName k, hname⟩

/-- Names are legal but for capitals that are reserved. They hang on the counts and the flags only. -/
theorem assignNamesByFrequency_exact (r : MinifyRenamer) (freq : CharFreq) :
    ∃ r', Settles (r.assignNamesByFrequency freq.compile) r' ∧ r'.reservedNames = r.reservedNames ∧
      (∀ ns, (r'.slots ns).map SymbolSlot.key = (r.slots ns).map SymbolSlot.key) ∧
      Function.Injective freq.compile.numberToMinifiedName ∧
      (∀ other : MinifyRenamer, other.reservedNames = r.reservedNames →
        (∀ ns, (other.slots ns).map SymbolSlot.key = (r.slots ns).map SymbolSlot.key) →
        ∃ other', Settles (other.assignNamesByFrequency freq.compile) other' ∧
          ∀ ns ∈ slotNamespaces, other'.slots ns = r'.slots ns) ∧
      (r'.Legal ↔ r.Spared freq.compile) := by
  obtain ⟨r', hsettles, hreserved, hkept, hall⟩ := foldlM_nameSlots freq.compile slotNamespaces (by decide) r
  refine ⟨r', hsettles, hreserved, fun ns => ?_, freq.compile.numberToMinifiedName_injective,
    fun other hreserved' hkeys => ?_, legal_iff hreserved hall⟩
  · by_cases hns : ns ∈ slotNamespaces
    · obtain ⟨numbers, hnamed⟩ := hall ns hns
      exact hnamed.map_key
    · rw [hkept ns hns]
  · obtain ⟨other', hsettles', -, -, hall'⟩ := foldlM_nameSlots freq.compile slotNamespaces (by decide) other
    refine ⟨other', hsettles', fun ns hns => ?_⟩
    obtain ⟨numbers, hnamed⟩ := hall ns hns
    obtain ⟨numbers', hnamed'⟩ := hall' ns hns
    exact hnamed.unique hreserved' (hkeys ns) hnamed'

/-- The first capital is reserved, and the only slot needs a capital. -/
def reservedCapital : MinifyRenamer where
  reservedNames := {[65]}
  slots ns := if ns = .default then [⟨[], 1, true⟩] else []

theorem assignNamesByFrequency_reservedCapital :
    ∃ r', reservedCapital.assignNamesByFrequency (CharFreq.mk fun _ => 0).compile 28 = some r' ∧
      r'.slots .default = [⟨[65], 1, true⟩] ∧ [65] ∈ r'.reservedNames ∧ ¬r'.Legal := by
  have hslots : (reservedCapital.assignNamesByFrequency (CharFreq.mk fun _ => 0).compile 28).map
      (fun r' => (r'.slots .default, decide ([65] ∈ r'.reservedNames))) = some ([⟨[65], 1, true⟩], true) := by
    decide +kernel
  obtain ⟨r', hassigned, hr'⟩ := Option.map_eq_some_iff.mp hslots
  obtain ⟨hdefault, hreserved⟩ := Prod.mk.inj hr'
  have hreserved := of_decide_eq_true hreserved
  exact ⟨r', hassigned, hdefault, hreserved, fun hlegal =>
    hlegal.unreserved ⟨[65], 1, true⟩ (hdefault ▸ List.mem_singleton.mpr rfl) hreserved⟩

end MinifyRenamer
end Funbun.Printer
