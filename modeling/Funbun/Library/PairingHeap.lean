import Mathlib.Data.List.Perm.Subperm
import Mathlib.Order.RelClasses

/-! Pairing heaps.

Linking two trees puts the one whose root is not less below the other, as its first child. Combining a forest links its
trees in pairs, from the first to the last, and then the pairs, from the last to the first. -/
namespace Funbun.Library.PairingHeap
open scoped List
variable {ι : Type}

/-- Trees one after the other: the first has a node and the forest below it. -/
inductive Forest (ι : Type) where
  | nil
  | node (v : ι) (child next : Forest ι)

/-- A node, and the forest below it -/
abbrev Rooted (ι : Type) := ι × Forest ι

def Forest.nodes : Forest ι → List ι
  | nil => []
  | node v child next => v :: (child.nodes ++ next.nodes)

def nodes (t : Rooted ι) : List ι := t.1 :: t.2.nodes

def allNodes (ts : List (Rooted ι)) : List ι := ts.flatMap nodes

section Operations
variable (less : ι → ι → Bool)

/-- The greater root becomes the first below the other one. -/
def link (a b : Rooted ι) : Rooted ι := if less a.1 b.1 then (a.1, .node b.1 b.2 a.2) else (b.1, .node a.1 a.2 b.2)

/-- Linking the trees of a forest in pairs, the last pair first -/
def pairUp (linked : List (Rooted ι)) : Forest ι → List (Rooted ι)
  | .nil => linked
  | .node a child .nil => (a, child) :: linked
  | .node a child (.node b child' rest) => pairUp (link less (a, child) (b, child') :: linked) rest

/-- Linking trees, each with what is linked behind it -/
def mergeUp (t : Rooted ι) (linked : List (Rooted ι)) : Rooted ι := linked.foldl (fun t before => link less before t) t

/-- The trees of a forest as one, if there is any -/
def combine (f : Forest ι) : Option (Rooted ι) :=
  match pairUp less [] f with
  | [] => none
  | t :: linked => some (mergeUp less t linked)

end Operations

/-- The forest without the tree at a node, and the forest below the node, if it is there -/
def cut [DecidableEq ι] (v : ι) : Forest ι → Option (Forest ι × Forest ι)
  | .nil => none
  | .node w child next =>
    if w = v then some (next, child)
    else
      match cut v child with
      | some (child', below) => some (.node w child' next, below)
      | none => (cut v next).map fun rest => (.node w child rest.1, rest.2)

/-! ### Nodes -/

section Nodes
variable {less : ι → ι → Bool}

theorem perm_link (a b : Rooted ι) : (nodes (link less a b)).Perm (nodes a ++ nodes b) := by
  unfold link nodes
  split
  · simp only [Forest.nodes, List.cons_append]
    exact (@List.perm_append_comm ι (b.1 :: b.2.nodes) a.2.nodes).cons a.1
  · simp only [Forest.nodes, List.cons_append]
    exact (@List.perm_middle ι b.1 (a.1 :: a.2.nodes) b.2.nodes).symm

theorem allNodes_cons (t : Rooted ι) (ts : List (Rooted ι)) : allNodes (t :: ts) = nodes t ++ allNodes ts := List.flatMap_cons

theorem nodes_node (v : ι) (child next : Forest ι) : (Forest.node v child next).nodes = nodes (v, child) ++ next.nodes := rfl

theorem perm_pairUp : ∀ (linked : List (Rooted ι)) (f : Forest ι),
    (allNodes (pairUp less linked f)).Perm (f.nodes ++ allNodes linked)
  | linked, .nil => .refl _
  | linked, .node a child .nil => by
    rw [pairUp, allNodes_cons, nodes_node]
    simp [Forest.nodes]
  | linked, .node a child (.node b child' rest) => by
    rw [pairUp, nodes_node, nodes_node]
    have hpair := perm_pairUp (link less (a, child) (b, child') :: linked) rest
    rw [allNodes_cons] at hpair
    refine hpair.trans ?_
    calc rest.nodes ++ (nodes (link less (a, child) (b, child')) ++ allNodes linked)
        _ = rest.nodes ++ nodes (link less (a, child) (b, child')) ++ allNodes linked := (List.append_assoc ..).symm
        _ ~ (nodes (link less (a, child) (b, child')) ++ rest.nodes ++ allNodes linked) :=
          List.perm_append_comm.append_right _
        _ ~ (nodes (a, child) ++ nodes (b, child') ++ rest.nodes ++ allNodes linked) :=
          ((perm_link _ _).append_right _).append_right _
        _ = nodes (a, child) ++ (nodes (b, child') ++ rest.nodes) ++ allNodes linked := by simp only [List.append_assoc]

theorem perm_mergeUp (t : Rooted ι) (linked : List (Rooted ι)) : (nodes (mergeUp less t linked)).Perm (nodes t ++ allNodes linked) := by
  unfold mergeUp
  induction linked generalizing t with
  | nil => simp [allNodes]
  | cons before linked ih =>
    rw [List.foldl_cons, allNodes_cons]
    refine (ih _).trans ?_
    rw [← List.append_assoc]
    exact ((perm_link before t).trans List.perm_append_comm).append_right _

theorem pairUp_ne_nil {v : ι} {child next : Forest ι} (linked : List (Rooted ι)) : pairUp less linked (.node v child next) ≠ [] := by
  intro h
  have hperm := (@perm_pairUp ι less linked (.node v child next)).length_eq
  rw [h, nodes_node, List.length_append, List.length_append] at hperm
  simp only [allNodes, nodes, List.flatMap_nil, List.length_nil, List.length_cons] at hperm
  omega

/-- A forest that is not empty has all of its nodes in one tree. -/
theorem exists_combine (v : ι) (child next : Forest ι) : ∃ t, combine less (.node v child next) = some t ∧
    (nodes t).Perm (Forest.node v child next).nodes := by
  have hperm := @perm_pairUp ι less [] (.node v child next)
  unfold combine
  cases hpairs : pairUp less [] (.node v child next) with
  | nil => exact absurd hpairs (pairUp_ne_nil [])
  | cons t linked =>
    rw [hpairs, allNodes_cons] at hperm
    refine ⟨_, rfl, (perm_mergeUp t linked).trans (hperm.trans ?_)⟩
    simp [allNodes]

variable [DecidableEq ι]

/-- What is cut out, what is below it and what remains are the whole forest. -/
theorem perm_cut {v : ι} : ∀ {f rest below : Forest ι}, cut v f = some (rest, below) →
    f.nodes.Perm (v :: (below.nodes ++ rest.nodes))
  | .nil, _, _, h => by cases h
  | .node w child next, rest, below, h => by
    rw [cut] at h
    split at h
    · rename_i heq
      cases h
      rw [heq]
      exact .refl _
    · split at h
      · rename_i child' below' hcut
        cases h
        have hperm := (perm_cut hcut).append_right next.nodes
        rw [List.cons_append, List.append_assoc] at hperm
        exact (hperm.cons w).trans ((List.Perm.swap ..).trans (List.perm_middle.symm.cons v))
      · cases hnext : cut v next with
        | none =>
          rw [hnext] at h
          cases h
        | some pair =>
          rw [hnext] at h
          cases h
          have hrest : next.nodes.Perm (v :: (pair.2.nodes ++ pair.1.nodes)) := perm_cut hnext
          have hperm := hrest.append_left child.nodes
          simp only [Forest.nodes]
          refine (hperm.cons w).trans ?_
          calc w :: (child.nodes ++ v :: (pair.2.nodes ++ pair.1.nodes))
              _ ~ (w :: v :: (child.nodes ++ (pair.2.nodes ++ pair.1.nodes))) := List.perm_middle.cons w
              _ ~ (v :: w :: (child.nodes ++ (pair.2.nodes ++ pair.1.nodes))) := .swap ..
              _ ~ (v :: w :: (pair.2.nodes ++ (child.nodes ++ pair.1.nodes))) := by
                refine List.Perm.cons v (List.Perm.cons w ?_)
                rw [← List.append_assoc, ← List.append_assoc]
                exact List.perm_append_comm.append_right _
              _ ~ (v :: (pair.2.nodes ++ w :: (child.nodes ++ pair.1.nodes))) := (List.perm_middle.symm).cons v

theorem cut_eq_none {v : ι} : ∀ {f : Forest ι}, cut v f = none ↔ v ∉ f.nodes
  | .nil => by simp [cut, Forest.nodes]
  | .node w child next => by
    have hchild : cut v child = none ↔ v ∉ child.nodes := cut_eq_none
    have hnext : cut v next = none ↔ v ∉ next.nodes := cut_eq_none
    rw [cut]
    simp only [Forest.nodes, List.mem_cons, List.mem_append, not_or]
    by_cases heq : w = v
    · rw [if_pos heq]
      simp [heq]
    · rw [if_neg heq]
      have heq' : ¬v = w := fun h => heq h.symm
      cases hcut : cut v child with
      | some pair =>
        rw [hcut] at hchild
        have hmem : ¬v ∉ child.nodes := fun h => by cases hchild.2 h
        simp [hmem]
      | none => simp [heq', hchild.1 hcut, hnext]

theorem mem_of_cut {v : ι} {f : Forest ι} {pair : Forest ι × Forest ι} (h : cut v f = some pair) : v ∈ f.nodes := by
  by_contra hnot
  rw [cut_eq_none.2 hnot] at h
  cases h

end Nodes

/-! ### Order -/

section Order
variable (less : ι → ι → Bool)

/-- No node of the forest is less than the node above it. -/
def Ordered : ι → Forest ι → Prop
  | _, .nil => True
  | above, .node v child next => less v above = false ∧ Ordered v child ∧ Ordered above next

/-- No node comes before the one above it. -/
def TreeOrdered (t : Rooted ι) : Prop := Ordered less t.1 t.2

/-- The trees of the forest are ordered. -/
def AllOrdered : Forest ι → Prop
  | .nil => True
  | .node v child next => TreeOrdered less (v, child) ∧ AllOrdered next

variable {less}

theorem Ordered.all {above : ι} : ∀ {f : Forest ι}, Ordered less above f → AllOrdered less f
  | .nil, _ => trivial
  | .node _ _ _, h => ⟨h.2.1, h.2.2.all⟩

theorem Ordered.cut [DecidableEq ι] {v : ι} : ∀ {above : ι} {f rest below : Forest ι}, Ordered less above f →
    PairingHeap.cut v f = some (rest, below) → Ordered less above rest ∧ TreeOrdered less (v, below)
  | _, .nil, _, _, _, hcut => by cases hcut
  | above, .node w child next, rest, below, h, hcut => by
    rw [PairingHeap.cut] at hcut
    split at hcut
    · rename_i heq
      cases hcut
      subst heq
      exact ⟨h.2.2, h.2.1⟩
    · split at hcut
      · rename_i child' below' hchild
        cases hcut
        have ih := h.2.1.cut hchild
        exact ⟨⟨h.1, ih.1, h.2.2⟩, ih.2⟩
      · cases hnext : PairingHeap.cut v next with
        | none =>
          rw [hnext] at hcut
          cases hcut
        | some pair =>
          rw [hnext] at hcut
          cases hcut
          have ih : Ordered less above pair.1 ∧ TreeOrdered less (v, pair.2) := h.2.2.cut hnext
          exact ⟨⟨h.1, h.2.1, ih.1⟩, ih.2⟩

variable [IsStrictWeakOrder ι fun a b => less a b = true]

theorem not_less_trans {a b c : ι} (hab : less a b = false) (hbc : less b c = false) : less a c = false := by
  have trans {x y z : ι} (hxy : less x y = true) (hyz : less y z = true) : less x z = true :=
    IsTrans.trans (r := fun a b => less a b = true) x y z hxy hyz
  have irrefl (x : ι) : ¬less x x = true := Std.Irrefl.irrefl (r := fun a b => less a b = true) x
  rw [Bool.eq_false_iff] at hab hbc ⊢
  intro hac
  have hba : ¬less b a = true := fun hba => hbc (trans hba hac)
  have hcb : ¬less c b = true := fun hcb => hab (trans hac hcb)
  exact (@IsStrictWeakOrder.incomp_trans ι (fun a b => less a b = true) _ a b c ⟨hab, hba⟩ ⟨hbc, hcb⟩).1 hac

theorem TreeOrdered.link {a b : Rooted ι} (ha : TreeOrdered less a) (hb : TreeOrdered less b) :
    TreeOrdered less (PairingHeap.link less a b) := by
  unfold PairingHeap.link
  split
  · rename_i hless
    have hnot : ¬less b.1 a.1 = true := fun h =>
      Std.Irrefl.irrefl (r := fun a b => less a b = true) a.1 (IsTrans.trans (r := fun a b => less a b = true) _ _ _ hless h)
    exact ⟨Bool.eq_false_iff.2 hnot, hb, ha⟩
  · rename_i hless
    exact ⟨Bool.eq_false_iff.2 hless, ha, hb⟩

theorem ordered_pairUp : ∀ {linked : List (Rooted ι)} {f : Forest ι}, (∀ t ∈ linked, TreeOrdered less t) → AllOrdered less f →
    ∀ t ∈ pairUp less linked f, TreeOrdered less t
  | _, .nil, hlinked, _ => hlinked
  | _, .node _ _ .nil, hlinked, hf => List.forall_mem_cons.2 ⟨hf.1, hlinked⟩
  | _, .node _ _ (.node _ _ _), hlinked, hf => by
    rw [pairUp]
    exact ordered_pairUp (List.forall_mem_cons.2 ⟨hf.1.link hf.2.1, hlinked⟩) hf.2.2

theorem ordered_mergeUp {linked : List (Rooted ι)} (hlinked : ∀ t ∈ linked, TreeOrdered less t) {t : Rooted ι}
    (ht : TreeOrdered less t) : TreeOrdered less (mergeUp less t linked) := by
  unfold mergeUp
  induction linked generalizing t with
  | nil => exact ht
  | cons before linked ih =>
    obtain ⟨hbefore, hlinked⟩ := List.forall_mem_cons.1 hlinked
    exact ih hlinked (hbefore.link ht)

theorem ordered_combine {f : Forest ι} (hf : AllOrdered less f) {t : Rooted ι} (h : combine less f = some t) : TreeOrdered less t := by
  have hpairs := ordered_pairUp (fun t ht => absurd ht List.not_mem_nil) hf
  unfold combine at h
  split at h
  · cases h
  · rename_i t' linked hlinked
    rw [hlinked] at hpairs
    cases h
    exact ordered_mergeUp (fun t ht => hpairs t (List.mem_cons_of_mem _ ht)) (hpairs t' List.mem_cons_self)

theorem Ordered.not_less {above : ι} : ∀ {f : Forest ι}, Ordered less above f → ∀ x ∈ f.nodes, less x above = false
  | .nil, _, x, hx => absurd hx List.not_mem_nil
  | .node v child next, h, x, hx => by
    rcases List.mem_cons.1 hx with rfl | hx
    · exact h.1
    · rcases List.mem_append.1 hx with hx | hx
      · exact not_less_trans (h.2.1.not_less x hx) h.1
      · exact h.2.2.not_less x hx

/-- **The root of a tree is its minimum.** -/
theorem TreeOrdered.not_less {t : Rooted ι} (h : TreeOrdered less t) : ∀ x ∈ nodes t, less x t.1 = false := by
  intro x hx
  rcases List.mem_cons.1 hx with rfl | hx
  · exact Bool.eq_false_iff.2 (Std.Irrefl.irrefl (r := fun a b => less a b = true) t.1)
  · exact Ordered.not_less h x hx

end Order

end Funbun.Library.PairingHeap
