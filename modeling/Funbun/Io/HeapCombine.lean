import Funbun.Io.HeapLinks

/-! Combining the children of a node that is gone.

While pairs are merged to the right, the trees that are merged are a stack: the previous node of each root is the root of the
tree below it, and its next node may be out of date. Merging to the left takes them from the stack. -/
namespace Funbun.Io
open Library Library.PairingHeap

section
variable {ι : Type}

/-- The trees of a stack, from the last one that was pushed on -/
def Stacked (fields : Fields ι) : List (Rooted ι) → Prop
  | [] => True
  | t :: linked => (fields t.1).prev = linked.head?.map Prod.fst ∧ Linked fields (some t.1) (fields t.1).child t.2 ∧
      Stacked fields linked

theorem Stacked.frame {fields fields' : Fields ι} : ∀ {linked : List (Rooted ι)}, Stacked fields linked →
    (∀ x ∈ allNodes linked, fields' x = fields x) → Stacked fields' linked
  | [], h, _ => h
  | t :: linked, h, hsame => by
    obtain ⟨hprev, hchild, hlinked⟩ := h
    have hroot := hsame t.1 (by rw [allNodes_cons]; exact List.mem_append_left _ List.mem_cons_self)
    refine ⟨by rw [hroot, hprev], ?_, hlinked.frame fun x hx => hsame x ?_⟩
    · rw [hroot]
      refine hchild.frame fun x hx => hsame x ?_
      rw [allNodes_cons]
      exact List.mem_append_left _ (List.mem_cons_of_mem _ hx)
    · rw [allNodes_cons]
      exact List.mem_append_right _ hx

variable [DecidableEq ι] {less : ι → ι → Bool} {fields : Fields ι}

theorem setNext_of_ne {v x : ι} (hx : x ≠ v) (link : Option ι) : setNext fields v link x = fields x := by
  rw [setNext, Function.update_of_ne hx]

/-- A tree whose siblings are taken away -/
theorem linked_setNext {prev : Option ι} {v : ι} {child : Forest ι} (hprev : (fields v).prev = prev)
    (hchild : Linked fields (some v) (fields v).child child) (hv : v ∉ child.nodes) :
    Linked (setNext fields v none) prev (some v) (.node v child .nil) := by
  refine ⟨rfl, ?_, ?_, ?_⟩
  · rw [prev_setNext, hprev]
  · rw [child_setNext]
    exact hchild.frame fun x hx => setNext_of_ne (ne_of_mem_of_not_mem hx hv) none
  · rw [next_setNext, if_pos rfl]
    exact Linked.nil

/-- One turn to the right takes two trees of the forest to the stack. -/
theorem mergeRight_pair (less : ι → ι → Bool) {linked : List (Rooted ι)} {a b : ι} {child child' rest : Forest ι}
    (h : Linked fields (linked.head?.map Prod.fst) (some a) (.node a child (.node b child' rest))) (hstacked : Stacked fields linked)
    (hnodup : ((Forest.node a child (.node b child' rest)).nodes ++ allNodes linked).Nodup) :
    let melded := meld less (setNext fields a none) a b
    let t := link less (a, child) (b, child')
    melded.2 = t.1 ∧ Stacked melded.1 (t :: linked) ∧ Linked melded.1 (some t.1) (melded.1 t.1).next rest ∧
      ∀ x, x ∉ (Forest.node a child (.node b child' rest)).nodes → melded.1 x = fields x := by
  intro melded t
  obtain ⟨hnodupForest, -, hdisjoint⟩ := List.nodup_append.1 hnodup
  rw [nodes_node, nodes_node] at hnodupForest
  have ha : a ∉ child.nodes := (List.nodup_cons.1 (List.nodup_append.1 hnodupForest).1).1
  have haRest : a ∉ (Forest.node b child' rest).nodes := fun hmem =>
    (List.nodup_append.1 hnodupForest).2.2 a List.mem_cons_self a (by rw [nodes_node] at hmem; exact hmem) rfl
  have hb : Linked (setNext fields a none) (some a) (some b) (.node b child' rest) := by
    have hnext := h.2.2.2
    have hfirst : (fields a).next = some b := hnext.1
    rw [hfirst] at hnext
    exact hnext.frame fun x hx => setNext_of_ne (ne_of_mem_of_not_mem hx haRest) none
  obtain ⟨hroot, hlinked, hsame⟩ := meld_linked (linked_setNext h.2.1 h.2.2.1 ha) hb hnodupForest
  have hframe : ∀ x, x ∉ (Forest.node a child (.node b child' rest)).nodes → melded.1 x = fields x := by
    intro x hx
    have hxa : x ≠ a := fun heq => hx (heq ▸ List.mem_cons_self)
    exact (hsame x hx).trans (setNext_of_ne hxa none)
  obtain ⟨-, hprev, hbelow, hnext⟩ := hlinked
  rw [hroot] at hprev hbelow hnext
  refine ⟨hroot, ⟨hprev, hbelow, hstacked.frame fun x hx => hframe x fun hmem => hdisjoint x hmem x hx rfl⟩, hnext, hframe⟩

/-- Merging to the right leaves the linked pairs on the stack. -/
theorem mergeRight_loop (less : ι → ι → Bool) : ∀ {f : Forest ι} {linked : List (Rooted ι)} {fields : Fields ι} {a : ι} {turns : Nat},
    Linked fields (linked.head?.map Prod.fst) (some a) f → Stacked fields linked → (f.nodes ++ allNodes linked).Nodup →
      f.nodes.length ≤ turns → ∃ fields' t rest, loop (mergeRight less) turns (fields, a) = .ok (fields', t.1) ∧
        pairUp less linked f = t :: rest ∧ Stacked fields' (t :: rest) ∧ (fields' t.1).next = none ∧
          ∀ x, x ∉ f.nodes ++ allNodes linked → fields' x = fields x
  | .nil, _, _, _, _, h, _, _, _ => by cases h
  | .node v child .nil, linked, fields, a, turns, h, hstacked, _, hturns => by
    obtain ⟨hfirst, hprev, hchild, hnext⟩ := h
    cases hfirst
    obtain ⟨n, rfl⟩ : ∃ n, turns = n + 1 := ⟨turns - 1, by simp only [Forest.nodes, List.length_cons] at hturns; omega⟩
    have hnone : (fields v).next = none := hnext
    have hturn : mergeRight less (fields, v) = .ok (.done (fields, v)) := by
      unfold mergeRight
      simp only [hnone]
    exact ⟨fields, (v, child), linked, loop_done hturn n, rfl, ⟨hprev, hchild, hstacked⟩, hnone, fun x _ => rfl⟩
  | .node v child (.node w child' rest), linked, fields, a, turns, h, hstacked, hnodup, hturns => by
    have hfirst := h.1
    cases hfirst
    obtain ⟨hroot, hstacked', hrest, hframe⟩ := mergeRight_pair less h hstacked hnodup
    obtain ⟨n, rfl⟩ : ∃ n, turns = n + 1 := ⟨turns - 1, by simp only [Forest.nodes, List.length_cons] at hturns; omega⟩
    have hsome : (fields v).next = some w := h.2.2.2.1
    rw [pairUp]
    cases rest with
    | nil =>
      have hnone : ((meld less (setNext fields v none) v w).1 (link less (v, child) (w, child')).1).next = none := hrest
      refine ⟨_, _, _, ?_, rfl, hstacked', hnone, fun x hx => hframe x fun hmem => hx (List.mem_append_left _ hmem)⟩
      rw [← hroot] at hnone
      have hturn : mergeRight less (fields, v) = .ok (.done (meld less (setNext fields v none) v w)) := by
        unfold mergeRight
        simp only [hsome, hnone]
      rw [loop_done hturn, ← hroot]
    | node u child'' next =>
      have hnext : ((meld less (setNext fields v none) v w).1 (link less (v, child) (w, child')).1).next = some u := hrest.1
      have hturn : mergeRight less (fields, v) = .ok (.next ((meld less (setNext fields v none) v w).1, u)) := by
        unfold mergeRight
        rw [← hroot] at hnext
        simp only [hsome, hnext]
      have hperm : ((Forest.node v child (.node w child' (.node u child'' next))).nodes ++ allNodes linked).Perm
          ((Forest.node u child'' next).nodes ++ allNodes (link less (v, child) (w, child') :: linked)) := by
        rw [nodes_node, nodes_node (v := w), allNodes_cons]
        have hpair := (@perm_link ι less (v, child) (w, child')).symm
        rw [← List.append_assoc, ← List.append_assoc]
        exact ((hpair.append_right _).trans List.perm_append_comm).append_right _
      rw [hnext] at hrest
      have hturns' : (Forest.node u child'' next).nodes.length ≤ n := by
        rw [nodes_node, nodes_node (v := w), List.length_append, List.length_append] at hturns
        simp only [PairingHeap.nodes, List.length_cons] at hturns
        omega
      obtain ⟨fields', t, rest', hloop, hpairs, hstacked'', hnone, hframe'⟩ := mergeRight_loop less hrest hstacked'
        (hperm.nodup_iff.1 hnodup) hturns'
      refine ⟨fields', t, rest', (loop_next hturn n).trans hloop, hpairs, hstacked'', hnone, fun x hx => ?_⟩
      rw [hframe' x fun hmem => hx (hperm.mem_iff.2 hmem), hframe x fun hmem => hx (List.mem_append_left _ hmem)]

/-- Merging to the left makes one tree of the stack. -/
theorem mergeLeft_loop : ∀ {linked : List (Rooted ι)} {t : Rooted ι} {fields : Fields ι} {turns : Nat}, Stacked fields (t :: linked) →
    (fields t.1).next = none → (allNodes (t :: linked)).Nodup → linked.length < turns →
      ∃ fields', loop (mergeLeft less) turns (fields, t.1) = .ok (fields', (mergeUp less t linked).1) ∧
        Linked fields' none (some (mergeUp less t linked).1) (.node (mergeUp less t linked).1 (mergeUp less t linked).2 .nil) ∧
          ∀ x, x ∉ allNodes (t :: linked) → fields' x = fields x
  | [], t, fields, turns, hstacked, hnext, _, hturns => by
    obtain ⟨n, rfl⟩ : ∃ n, turns = n + 1 := ⟨turns - 1, by omega⟩
    have hprev : (fields t.1).prev = none := hstacked.1
    have hturn : mergeLeft less (fields, t.1) = .ok (.done (fields, t.1)) := by
      unfold mergeLeft
      simp only [hprev]
    exact ⟨fields, loop_done hturn n, ⟨rfl, hprev, hstacked.2.1, hnext⟩, fun x _ => rfl⟩
  | before :: linked, t, fields, turns, hstacked, hnext, hnodup, hturns => by
    obtain ⟨n, rfl⟩ : ∃ n, turns = n + 1 := ⟨turns - 1, by omega⟩
    obtain ⟨hprev, hchild, hbefore, hbelow, hlinked⟩ := hstacked
    have hprev' : (fields t.1).prev = some before.1 := hprev
    have hturn : mergeLeft less (fields, t.1) = .ok (.next (meld less (setNext fields before.1 none) before.1 t.1)) := by
      unfold mergeLeft
      simp only [hprev']
    rw [allNodes_cons, allNodes_cons, ← List.append_assoc] at hnodup
    obtain ⟨hnodupPair, -, hdisjoint⟩ := List.nodup_append.1 hnodup
    have hnodupPair' := List.perm_append_comm.nodup_iff.1 hnodupPair
    have hnot : before.1 ∉ before.2.nodes := (List.nodup_cons.1 (List.nodup_append.1 hnodupPair').1).1
    have hnotT : ∀ x ∈ PairingHeap.nodes t, x ≠ before.1 := fun x hx heq =>
      (List.nodup_append.1 hnodupPair).2.2 x hx before.1 List.mem_cons_self heq
    -- the tree below the top of the stack, and the top
    have ha : Linked (setNext fields before.1 none) (linked.head?.map Prod.fst) (some before.1) (.node before.1 before.2 .nil) :=
      linked_setNext hbefore hbelow hnot
    have ht : Linked (setNext fields before.1 none) (some before.1) (some t.1) (.node t.1 t.2 .nil) := by
      have htop : Linked fields (some before.1) (some t.1) (.node t.1 t.2 .nil) := ⟨rfl, hprev', hchild, hnext⟩
      refine htop.frame fun x hx => setNext_of_ne (hnotT x ?_) none
      rw [nodes_node, Forest.nodes, List.append_nil] at hx
      exact hx
    obtain ⟨hroot, hmelded, hsame⟩ := @meld_linked ι _ _ _ less _ _ _ _ _ _ ha ht (by rw [Forest.nodes, List.append_nil]; exact hnodupPair')
    have hframe : ∀ x, x ∉ PairingHeap.nodes t ++ PairingHeap.nodes before →
        (meld less (setNext fields before.1 none) before.1 t.1).1 x = fields x := by
      intro x hx
      rw [List.mem_append, not_or] at hx
      have hxb : x ≠ before.1 := fun heq => hx.2 (heq ▸ List.mem_cons_self)
      refine (hsame x ?_).trans (setNext_of_ne hxb none)
      rw [Forest.nodes, List.append_nil, List.mem_append, not_or]
      exact ⟨hx.2, hx.1⟩
    obtain ⟨-, hmPrev, hmChild, hmNext⟩ := hmelded
    rw [hroot] at hmPrev hmChild hmNext
    have hperm : (PairingHeap.nodes t ++ PairingHeap.nodes before ++ allNodes linked).Perm
        (allNodes (link less before t :: linked)) := by
      rw [allNodes_cons]
      exact ((perm_link before t).trans List.perm_append_comm).symm.append_right _
    have hstacked' : Stacked (meld less (setNext fields before.1 none) before.1 t.1).1 (link less before t :: linked) :=
      ⟨hmPrev, hmChild, hlinked.frame fun x hx => hframe x fun hmem => hdisjoint x hmem x hx rfl⟩
    obtain ⟨fields', hloop, hlinked', hframe'⟩ := mergeLeft_loop hstacked' hmNext (hperm.nodup_iff.1 hnodup)
      (Nat.lt_of_succ_lt_succ hturns)
    refine ⟨fields', ?_, hlinked', fun x hx => ?_⟩
    · rw [loop_next hturn]
      have hstate : meld less (setNext fields before.1 none) before.1 t.1 =
          ((meld less (setNext fields before.1 none) before.1 t.1).1, (link less before t).1) := by
        rw [← hroot]
      rw [hstate]
      exact hloop
    · rw [allNodes_cons, allNodes_cons, ← List.append_assoc] at hx
      rw [hframe' x fun hmem => hx (hperm.mem_iff.2 hmem), hframe x fun hmem => hx (List.mem_append_left _ hmem)]

omit [DecidableEq ι] in
theorem length_le_allNodes : ∀ ts : List (Rooted ι), ts.length ≤ (allNodes ts).length
  | [] => Nat.le_refl _
  | t :: ts => by
    rw [allNodes_cons, List.length_append, List.length_cons]
    have hrest := length_le_allNodes ts
    simp only [PairingHeap.nodes, List.length_cons]
    omega

/-- **Combining siblings** makes one tree of them, whatever the links of the first one to the left were. -/
theorem combineSiblings_returns (less : ι → ι → Bool) {prev : Option ι} {left : ι} {f : Forest ι} {turns : Nat} (h : Linked fields prev (some left) f)
    (hnodup : f.nodes.Nodup) (hturns : f.nodes.length < turns) :
    ∃ fields' t, combineSiblings less turns fields left = .ok (fields', t.1) ∧ combine less f = some t ∧
      Linked fields' none (some t.1) (.node t.1 t.2 .nil) ∧ ∀ x, x ∉ f.nodes → fields' x = fields x := by
  have hstart : Linked (setPrev fields left none) none (some left) f := by
    refine h.reattach hnodup fun x _ => ⟨child_setPrev .., next_setPrev .., ?_⟩
    rw [prev_setPrev]
    by_cases hx : x = left
    · rw [if_pos hx, if_pos (congrArg some hx)]
    · rw [if_neg hx, if_neg fun heq => hx (Option.some.inj heq)]
  have hleft : left ∈ f.nodes := h.first_mem
  have hempty : Stacked (setPrev fields left none) ([] : List (Rooted ι)) := trivial
  have hall : (f.nodes ++ allNodes ([] : List (Rooted ι))).Nodup := by
    rw [allNodes, List.flatMap_nil, List.append_nil]
    exact hnodup
  obtain ⟨fields₁, t, linked, hright, hpairs, hstacked, hnext, hframe⟩ := mergeRight_loop less hstart hempty hall
    (Nat.le_of_lt hturns)
  have hperm : (allNodes (t :: linked)).Perm f.nodes := by
    have hall := @perm_pairUp ι less [] f
    rw [hpairs] at hall
    have hnil : allNodes ([] : List (Rooted ι)) = [] := rfl
    rwa [hnil, List.append_nil] at hall
  have hlength : linked.length < turns := by
    have hle := length_le_allNodes (t :: linked)
    rw [hperm.length_eq, List.length_cons] at hle
    omega
  obtain ⟨fields₂, hloop, hlinked, hframe'⟩ := mergeLeft_loop hstacked hnext (hperm.nodup_iff.2 hnodup) hlength
  refine ⟨fields₂, mergeUp less t linked, ?_, ?_, hlinked, fun x hx => ?_⟩
  · unfold combineSiblings
    rw [hright]
    exact hloop
  · unfold combine
    rw [hpairs]
  · rw [hframe' x fun hmem => hx (hperm.mem_iff.1 hmem), hframe x (by simpa [allNodes] using hx), setPrev,
      Function.update_of_ne (ne_of_mem_of_not_mem hleft hx).symm]

end

end Funbun.Io
