import Funbun.Io.Heap
import Funbun.Library.PairingHeap

/-! The links of a heap are those of a forest.

A first child and a sibling have their parent and the sibling before them as their previous node. Two trees are melded in place,
and the links of all other nodes stay as they are. -/
namespace Funbun.Io
open Library Library.PairingHeap

section
variable {ι : Type}

/-! ### Reading a link that was written -/

section Writes
variable [DecidableEq ι] (fields : Fields ι) (v x : ι) (link : Option ι)

@[simp] theorem child_setChild : (setChild fields v link x).child = if x = v then link else (fields x).child := by
  rw [setChild, Function.update_apply]
  split <;> simp_all

@[simp] theorem prev_setChild : (setChild fields v link x).prev = (fields x).prev := by
  rw [setChild, Function.update_apply]
  split <;> simp_all

@[simp] theorem next_setChild : (setChild fields v link x).next = (fields x).next := by
  rw [setChild, Function.update_apply]
  split <;> simp_all

@[simp] theorem child_setPrev : (setPrev fields v link x).child = (fields x).child := by
  rw [setPrev, Function.update_apply]
  split <;> simp_all

@[simp] theorem prev_setPrev : (setPrev fields v link x).prev = if x = v then link else (fields x).prev := by
  rw [setPrev, Function.update_apply]
  split <;> simp_all

@[simp] theorem next_setPrev : (setPrev fields v link x).next = (fields x).next := by
  rw [setPrev, Function.update_apply]
  split <;> simp_all

@[simp] theorem child_setNext : (setNext fields v link x).child = (fields x).child := by
  rw [setNext, Function.update_apply]
  split <;> simp_all

@[simp] theorem prev_setNext : (setNext fields v link x).prev = (fields x).prev := by
  rw [setNext, Function.update_apply]
  split <;> simp_all

@[simp] theorem next_setNext : (setNext fields v link x).next = if x = v then link else (fields x).next := by
  rw [setNext, Function.update_apply]
  split <;> simp_all

end Writes

theorem field_ext {p q : IntrusiveField ι} (hchild : p.child = q.child) (hprev : p.prev = q.prev) (hnext : p.next = q.next) :
    p = q := by
  cases p
  cases q
  simp_all

/-! ### Forests of links -/

/-- The links from `first` on are those of the forest, whose first tree has `prev` as its previous node. -/
def Linked (fields : Fields ι) : Option ι → Option ι → Forest ι → Prop
  | _, first, .nil => first = none
  | prev, first, .node v child next => first = some v ∧ (fields v).prev = prev ∧ Linked fields (some v) (fields v).child child ∧
      Linked fields (some v) (fields v).next next

variable {fields fields' : Fields ι} {prev first : Option ι} {f : Forest ι}

theorem Linked.nil : Linked fields prev none .nil := rfl

theorem Linked.first_mem {x : ι} (h : Linked fields prev (some x) f) : x ∈ f.nodes := by
  cases f with
  | nil => cases h
  | node v child next =>
    cases h.1
    exact List.mem_cons_self

theorem Linked.eq_nil (h : Linked fields prev none f) : f = .nil := by
  cases f with
  | nil => rfl
  | node v child next => cases h.1

/-- The same links, but for the first tree, which may have another previous node. -/
theorem Linked.reattach [DecidableEq ι] {prev' : Option ι} : ∀ {f : Forest ι} {prev first : Option ι}, Linked fields prev first f → f.nodes.Nodup →
    (∀ x ∈ f.nodes, (fields' x).child = (fields x).child ∧ (fields' x).next = (fields x).next ∧
      (fields' x).prev = if some x = first then prev' else (fields x).prev) → Linked fields' prev' first f
  | .nil, _, _, h, _, _ => h
  | .node v child next, prev, first, h, hnodup, hsame => by
    obtain ⟨rfl, -, hchild, hnext⟩ := h
    have hv := hsame v List.mem_cons_self
    obtain ⟨hnot, hnodup⟩ := List.nodup_cons.1 hnodup
    have hkeep : ∀ {g : Forest ι} {first : Option ι}, Linked fields (some v) first g → (∀ x ∈ g.nodes, x ∈ child.nodes ++ next.nodes) →
        ∀ x ∈ g.nodes, (fields' x).child = (fields x).child ∧ (fields' x).next = (fields x).next ∧
          (fields' x).prev = if some x = first then some v else (fields x).prev := by
      intro g first hg hsub x hx
      have hne : x ≠ v := fun heq => hnot (heq ▸ hsub x hx)
      have hx' := hsame x (List.mem_cons_of_mem v (hsub x hx))
      refine ⟨hx'.1, hx'.2.1, ?_⟩
      rw [hx'.2.2, if_neg fun heq => hne (Option.some.inj heq)]
      split
      · rename_i heq
        subst heq
        cases g with
        | nil => cases hg
        | node w gchild gnext =>
          cases hg.1
          exact hg.2.1
      · rfl
    refine ⟨rfl, by rw [hv.2.2, if_pos rfl], ?_, ?_⟩
    · rw [hv.1]
      exact Linked.reattach hchild (List.nodup_append.1 hnodup).1 (hkeep hchild fun x hx => List.mem_append_left _ hx)
    · rw [hv.2.1]
      exact Linked.reattach hnext (List.nodup_append.1 hnodup).2.1 (hkeep hnext fun x hx => List.mem_append_right _ hx)

/-- The links of other nodes do not matter. -/
theorem Linked.frame : ∀ {f : Forest ι} {prev first : Option ι}, Linked fields prev first f →
    (∀ x ∈ f.nodes, fields' x = fields x) → Linked fields' prev first f
  | .nil, _, _, h, _ => h
  | .node v child next, prev, first, h, hsame => by
    obtain ⟨rfl, hprev, hchild, hnext⟩ := h
    have hv := hsame v List.mem_cons_self
    refine ⟨rfl, by rw [hv, hprev], ?_, ?_⟩
    · rw [hv]
      exact hchild.frame fun x hx => hsame x (List.mem_cons_of_mem v (List.mem_append_left _ hx))
    · rw [hv]
      exact hnext.frame fun x hx => hsame x (List.mem_cons_of_mem v (List.mem_append_right _ hx))

/-! ### Melding two trees -/

section Meld
variable [DecidableEq ι] {less : ι → ι → Bool} {a b : ι}

/-- The links after `b` has become the first child of `a` -/
theorem meld_below (hless : less a b = true) (hab : a ≠ b) (hnext : (fields a).next = none) :
    (meld less fields a b).2 = a ∧ ∀ x,
      ((meld less fields a b).1 x).child = (if x = a then some b else (fields x).child) ∧
      ((meld less fields a b).1 x).next = (if x = a then (fields b).next else if x = b then (fields a).child else (fields x).next) ∧
      ((meld less fields a b).1 x).prev = (if some x = (fields a).child then some b else if some x = (fields b).next then some a
        else if x = b then some a else (fields x).prev) := by
  unfold meld
  rw [if_pos hless]
  refine ⟨rfl, fun x => ?_⟩
  cases hb : (fields b).next <;> cases ha : (fields a).child <;> simp [hb, ha]
  all_goals by_cases hxa : x = a <;> by_cases hxb : x = b <;> simp_all

/-- The links after `a` has become the first child of `b` -/
theorem meld_above (hless : ¬less a b = true) (hnext : (fields a).next = none) :
    (meld less fields a b).2 = b ∧ ∀ x,
      ((meld less fields a b).1 x).child = (if x = b then some a else (fields x).child) ∧
      ((meld less fields a b).1 x).next = (if x = a then (fields b).child else (fields x).next) ∧
      ((meld less fields a b).1 x).prev = (if some x = (fields b).child then some a else if x = a then some b
        else if x = b then (fields a).prev else (fields x).prev) := by
  unfold meld
  rw [if_neg hless]
  refine ⟨rfl, fun x => ?_⟩
  cases hb : (fields b).child <;> simp [hb]
  all_goals by_cases hxa : x = a <;> by_cases hxb : x = b <;> simp_all

/-- Two trees and what is behind the second one have no node in common. -/
structure Apart (a b : ι) (child child' rest : Forest ι) : Prop where
  ne : a ≠ b
  nodup : child.nodes.Nodup
  nodup' : child'.nodes.Nodup
  nodupRest : rest.nodes.Nodup
  ofChild : ∀ x ∈ child.nodes, x ≠ a ∧ x ≠ b ∧ x ∉ child'.nodes ∧ x ∉ rest.nodes
  ofChild' : ∀ x ∈ child'.nodes, x ≠ a ∧ x ≠ b ∧ x ∉ child.nodes ∧ x ∉ rest.nodes
  ofRest : ∀ x ∈ rest.nodes, x ≠ a ∧ x ≠ b ∧ x ∉ child.nodes ∧ x ∉ child'.nodes

variable {q : Option ι} {child child' rest : Forest ι}

omit [DecidableEq ι] in
theorem apart_of_nodup
    (hnodup : (PairingHeap.nodes (a, child) ++ (PairingHeap.nodes (b, child') ++ rest.nodes)).Nodup) :
    Apart a b child child' rest := by
  obtain ⟨hnodupA, hnodupB, hdisjoint⟩ := List.nodup_append.1 hnodup
  obtain ⟨hnodupB, hnodupRest, hdisjointRest⟩ := List.nodup_append.1 hnodupB
  obtain ⟨haNot, hnodupChild⟩ := List.nodup_cons.1 hnodupA
  obtain ⟨hbNot, hnodupChild'⟩ := List.nodup_cons.1 hnodupB
  have hchild : ∀ x ∈ child.nodes, x ≠ a ∧ x ≠ b ∧ x ∉ child'.nodes ∧ x ∉ rest.nodes := by
    intro x hx
    have hx' : x ∈ PairingHeap.nodes (a, child) := List.mem_cons_of_mem a hx
    refine ⟨fun h => haNot (h ▸ hx), hdisjoint x hx' b (List.mem_append_left _ List.mem_cons_self), fun h => ?_, fun h => ?_⟩
    · exact hdisjoint x hx' x (List.mem_append_left _ (List.mem_cons_of_mem b h)) rfl
    · exact hdisjoint x hx' x (List.mem_append_right _ h) rfl
  have hchild' : ∀ x ∈ child'.nodes, x ≠ a ∧ x ≠ b ∧ x ∉ child.nodes ∧ x ∉ rest.nodes := by
    intro x hx
    have hx' : x ∈ PairingHeap.nodes (b, child') := List.mem_cons_of_mem b hx
    refine ⟨fun h => hdisjoint a List.mem_cons_self x (List.mem_append_left _ hx') h.symm, fun h => hbNot (h ▸ hx), fun h => ?_,
      fun h => hdisjointRest x hx' x h rfl⟩
    exact (hchild x h).2.2.1 hx
  refine ⟨?_, hnodupChild, hnodupChild', hnodupRest, hchild, hchild', fun x hx => ?_⟩
  · exact hdisjoint a List.mem_cons_self b (List.mem_append_left _ List.mem_cons_self)
  · exact ⟨fun h => hdisjoint a List.mem_cons_self x (List.mem_append_right _ hx) h.symm,
      fun h => hdisjointRest b List.mem_cons_self x hx h.symm, fun h => (hchild x h).2.2.2 hx, fun h => (hchild' x h).2.2.2 hx⟩

/-- The heap has the links of the melded tree, and other nodes keep theirs. -/
def Melds (fields : ι → IntrusiveField ι) (prev : Option ι) (less : ι → ι → Bool) (a b : ι) (child child' rest : Forest ι) :
    Prop :=
  (meld less fields a b).2 = (link less (a, child) (b, child')).1 ∧
    Linked (meld less fields a b).1 prev (some (meld less fields a b).2)
      (.node (meld less fields a b).2 (link less (a, child) (b, child')).2 rest) ∧
    ∀ x, x ∉ PairingHeap.nodes (a, child) ++ (PairingHeap.nodes (b, child') ++ rest.nodes) →
      (meld less fields a b).1 x = fields x

theorem melds_below (hless : less a b = true) (ha : Linked fields prev (some a) (.node a child .nil))
    (hb : Linked fields q (some b) (.node b child' rest)) (h : Apart a b child child' rest) :
    Melds fields prev less a b child child' rest := by
  obtain ⟨-, haPrev, haChild, hnext⟩ := ha
  obtain ⟨-, hbPrev, hbChild, hbNext⟩ := hb
  -- the first nodes are in their forests
  have hchildFirst : ∀ {x : ι}, some x = (fields a).child → x ∈ child.nodes := fun {x} h => Linked.first_mem (h ▸ haChild)
  have hrestFirst : ∀ {x : ι}, some x = (fields b).next → x ∈ rest.nodes := fun {x} h => Linked.first_mem (h ▸ hbNext)
  obtain ⟨hroot, hlinks⟩ := meld_below hless h.ne hnext
  have hlink : link less (a, child) (b, child') = (a, .node b child' child) := if_pos hless
  unfold Melds
  rw [hlink, hroot]
  have hsame : ∀ x, x ≠ a → x ≠ b → x ∉ child.nodes → x ∉ rest.nodes → (meld less fields a b).1 x = fields x := by
    intro x hxa hxb hx hx'
    obtain ⟨hc, hn, hp⟩ := hlinks x
    rw [if_neg hxa] at hc
    rw [if_neg hxa, if_neg hxb] at hn
    rw [if_neg fun h => hx (hchildFirst h), if_neg fun h => hx' (hrestFirst h), if_neg hxb] at hp
    exact field_ext hc hp hn
  obtain ⟨hac, han, hap⟩ := hlinks a
  rw [if_pos rfl] at hac han
  rw [if_neg fun heq => (h.ofChild a (hchildFirst heq)).1 rfl, if_neg fun heq => (h.ofRest a (hrestFirst heq)).1 rfl,
    if_neg h.ne] at hap
  obtain ⟨hbc, hbn, hbp⟩ := hlinks b
  rw [if_neg (Ne.symm h.ne)] at hbc hbn
  rw [if_pos rfl] at hbn
  rw [if_neg fun heq => (h.ofChild b (hchildFirst heq)).2.1 rfl, if_neg fun heq => (h.ofRest b (hrestFirst heq)).2.1 rfl,
    if_pos rfl] at hbp
  refine ⟨rfl, ⟨rfl, hap.trans haPrev, ?_, ?_⟩, fun x hx => ?_⟩
  · rw [hac]
    refine ⟨rfl, hbp, ?_, ?_⟩
    · rw [hbc]
      refine hbChild.frame fun x hx => ?_
      obtain ⟨hxa, hxb, hx, hx'⟩ := h.ofChild' x hx
      exact hsame x hxa hxb hx hx'
    · rw [hbn]
      refine haChild.reattach h.nodup fun x hx => ?_
      obtain ⟨hc, hn, hp⟩ := hlinks x
      obtain ⟨hxa, hxb, -, hx⟩ := h.ofChild x hx
      rw [if_neg hxa] at hc hn
      rw [if_neg hxb] at hn hp
      rw [if_neg fun heq => hx (hrestFirst heq)] at hp
      exact ⟨hc, hn, hp⟩
  · rw [han]
    refine hbNext.reattach h.nodupRest fun x hx => ?_
    obtain ⟨hc, hn, hp⟩ := hlinks x
    obtain ⟨hxa, hxb, hx, -⟩ := h.ofRest x hx
    rw [if_neg hxa] at hc hn
    rw [if_neg hxb] at hn hp
    rw [if_neg fun heq => hx (hchildFirst heq)] at hp
    exact ⟨hc, hn, hp⟩
  · simp only [PairingHeap.nodes, List.mem_append, List.mem_cons, not_or] at hx
    exact hsame x hx.1.1 hx.2.1.1 hx.1.2 hx.2.2

theorem melds_above (hless : ¬less a b = true) (ha : Linked fields prev (some a) (.node a child .nil))
    (hb : Linked fields q (some b) (.node b child' rest)) (h : Apart a b child child' rest) :
    Melds fields prev less a b child child' rest := by
  obtain ⟨-, haPrev, haChild, hnext⟩ := ha
  obtain ⟨-, hbPrev, hbChild, hbNext⟩ := hb
  have hchildFirst : ∀ {x : ι}, some x = (fields b).child → x ∈ child'.nodes := fun {x} h => Linked.first_mem (h ▸ hbChild)
  obtain ⟨hroot, hlinks⟩ := meld_above hless hnext
  have hlink : link less (a, child) (b, child') = (b, .node a child child') := if_neg hless
  unfold Melds
  rw [hlink, hroot]
  have hsame : ∀ x, x ≠ a → x ≠ b → x ∉ child'.nodes → (meld less fields a b).1 x = fields x := by
    intro x hxa hxb hx
    obtain ⟨hc, hn, hp⟩ := hlinks x
    rw [if_neg hxb] at hc
    rw [if_neg hxa] at hn
    rw [if_neg fun h => hx (hchildFirst h), if_neg hxa, if_neg hxb] at hp
    exact field_ext hc hp hn
  obtain ⟨hac, han, hap⟩ := hlinks a
  rw [if_neg h.ne] at hac
  rw [if_pos rfl] at han
  rw [if_neg fun heq => (h.ofChild' a (hchildFirst heq)).1 rfl, if_pos rfl] at hap
  obtain ⟨hbc, hbn, hbp⟩ := hlinks b
  rw [if_pos rfl] at hbc
  rw [if_neg (Ne.symm h.ne)] at hbn
  rw [if_neg fun heq => (h.ofChild' b (hchildFirst heq)).2.1 rfl, if_neg (Ne.symm h.ne), if_pos rfl] at hbp
  refine ⟨rfl, ⟨rfl, hbp.trans haPrev, ?_, ?_⟩, fun x hx => ?_⟩
  · rw [hbc]
    refine ⟨rfl, hap, ?_, ?_⟩
    · rw [hac]
      exact haChild.frame fun x hx => hsame x (h.ofChild x hx).1 (h.ofChild x hx).2.1 (h.ofChild x hx).2.2.1
    · rw [han]
      refine hbChild.reattach h.nodup' fun x hx => ?_
      obtain ⟨hc, hn, hp⟩ := hlinks x
      obtain ⟨hxa, hxb, -⟩ := h.ofChild' x hx
      rw [if_neg hxb] at hc
      rw [if_neg hxa] at hn
      rw [if_neg hxa, if_neg hxb] at hp
      exact ⟨hc, hn, hp⟩
  · rw [hbn]
    exact hbNext.frame fun x hx => hsame x (h.ofRest x hx).1 (h.ofRest x hx).2.1 (h.ofRest x hx).2.2.2
  · simp only [PairingHeap.nodes, List.mem_append, List.mem_cons, not_or] at hx
    exact hsame x hx.1.1 hx.2.1.1 hx.2.1.2

/-- Melding two trees links them. -/
theorem meld_linked (ha : Linked fields prev (some a) (.node a child .nil))
    (hb : Linked fields q (some b) (.node b child' rest))
    (hnodup : (PairingHeap.nodes (a, child) ++ (PairingHeap.nodes (b, child') ++ rest.nodes)).Nodup) :
    Melds fields prev less a b child child' rest := by
  have hapart := apart_of_nodup hnodup
  by_cases hless : less a b = true
  · exact melds_below hless ha hb hapart
  · exact melds_above hless ha hb hapart

end Meld

end

end Funbun.Io
