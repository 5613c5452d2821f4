import Mathlib.Data.Set.Insert
import Funbun.Io.HeapCombine
import Funbun.Io.HeapDetach

/-! Runs of the intrusive heap.

The links of a heap are those of one ordered tree, whose root is its minimum. Inserting a node, removing one and deleting the
minimum leave the links of one ordered tree, of the nodes that remain. -/
namespace Funbun.Io
open Library Library.PairingHeap

section
variable {ι : Type} [DecidableEq ι]

/-! ### One operation -/

section Operations
variable (less : ι → ι → Bool)

/-- The links of the heap are those of the tree. -/
structure Holds (h : Intrusive ι) (t : Rooted ι) : Prop where
  root : h.root = some t.1
  linked : Linked h.fields none (some t.1) (.node t.1 t.2 .nil)
  nodup : (PairingHeap.nodes t).Nodup
  ordered : TreeOrdered less t

/-- The heap has the nodes of a list. -/
def Contains (h : Intrusive ι) (members : List ι) : Prop :=
  (h.root = none ∧ members = []) ∨ ∃ t, Holds less h t ∧ (PairingHeap.nodes t).Perm members

variable {less} [IsStrictWeakOrder ι fun a b => less a b = true] {h : Intrusive ι} {t : Rooted ι}

/-- The heap after a tree is melded with its root -/
theorem holds_meld {fields : Fields ι} {s : Rooted ι} (hs : Linked fields none (some s.1) (.node s.1 s.2 .nil))
    (ht : Linked fields none (some t.1) (.node t.1 t.2 .nil)) (hnodup : (PairingHeap.nodes s ++ PairingHeap.nodes t).Nodup)
    (hsOrdered : TreeOrdered less s) (htOrdered : TreeOrdered less t) :
    Holds less ⟨(meld less fields s.1 t.1).1, some (meld less fields s.1 t.1).2⟩ (link less s t) ∧
      ∀ x, x ∉ PairingHeap.nodes s ++ PairingHeap.nodes t → (meld less fields s.1 t.1).1 x = fields x := by
  have hnodup' : (PairingHeap.nodes s ++ (PairingHeap.nodes t ++ (Forest.nil : Forest ι).nodes)).Nodup := by
    rw [Forest.nodes, List.append_nil]
    exact hnodup
  obtain ⟨hroot, hlinked, hsame⟩ := @meld_linked ι _ _ _ less _ _ _ _ _ _ hs ht hnodup'
  rw [hroot] at hlinked
  refine ⟨⟨congrArg some hroot, hlinked, (perm_link s t).nodup_iff.2 hnodup, hsOrdered.link htOrdered⟩, fun x hx => hsame x ?_⟩
  rw [Forest.nodes, List.append_nil]
  exact hx

theorem Holds.insert (ht : Holds less h t) {v : ι} (hv : v ∉ PairingHeap.nodes t) (hclear : h.fields v = .default) :
    Holds less (h.insert less v) (link less (v, .nil) t) ∧
      ∀ x, x ≠ v → x ∉ PairingHeap.nodes t → (h.insert less v).fields x = h.fields x := by
  have hs : Linked h.fields none (some v) (.node v .nil .nil) := by
    refine ⟨rfl, ?_, ?_, ?_⟩
    all_goals rw [hclear]; rfl
  have hnodup : (PairingHeap.nodes (v, .nil) ++ PairingHeap.nodes t).Nodup := List.nodup_cons.2 ⟨hv, ht.nodup⟩
  obtain ⟨hholds, hsame⟩ := holds_meld (s := (v, .nil)) hs ht.linked hnodup trivial ht.ordered
  unfold Intrusive.insert
  rw [ht.root]
  refine ⟨hholds, fun x hxv hx => hsame x fun hmem => ?_⟩
  rcases List.mem_cons.1 hmem with rfl | hmem
  · exact hxv rfl
  · exact hx hmem

omit [IsStrictWeakOrder ι fun a b => less a b = true] in
theorem insert_empty (less : ι → ι → Bool) (hroot : h.root = none) {v : ι} (hclear : h.fields v = .default) :
    Holds less (h.insert less v) (v, .nil) ∧ (h.insert less v).fields = h.fields := by
  unfold Intrusive.insert
  rw [hroot]
  refine ⟨⟨rfl, ⟨rfl, ?_, ?_, ?_⟩, by simp [PairingHeap.nodes, Forest.nodes], trivial⟩, rfl⟩
  all_goals
    simp only
    rw [hclear]
    rfl

theorem Holds.deleteMin (ht : Holds less h t) {turns : Nat} (hturns : (PairingHeap.nodes t).length ≤ turns) :
    ∃ h', h.deleteMin less turns = .ok (some t.1, h') ∧ h'.fields t.1 = .default ∧
      (∀ x, x ∉ PairingHeap.nodes t → h'.fields x = h.fields x) ∧ Contains less h' t.2.nodes := by
  obtain ⟨-, -, hchild, -⟩ := ht.linked
  obtain ⟨hnot, hnodup⟩ := List.nodup_cons.1 ht.nodup
  unfold Intrusive.deleteMin
  rw [ht.root]
  simp only
  cases hc : (h.fields t.1).child with
  | none =>
    rw [hc] at hchild
    refine ⟨_, rfl, Function.update_self .., fun x hx => ?_, .inl ⟨rfl, by rw [hchild.eq_nil]; rfl⟩⟩
    exact Function.update_of_ne (ne_of_mem_of_not_mem List.mem_cons_self hx).symm ..
  | some child =>
    rw [hc] at hchild
    have hlength : t.2.nodes.length < turns := hturns
    obtain ⟨fields', t', hcombine, heq, hlinked, hsame⟩ := combineSiblings_returns less hchild hnodup hlength
    simp only [hcombine]
    have hperm : (PairingHeap.nodes t').Perm t.2.nodes := by
      cases hforest : t.2 with
      | nil =>
        rw [hforest] at hchild
        cases hchild
      | node v below next =>
        obtain ⟨t₁, heq₁, hperm⟩ := @exists_combine ι less v below next
        rw [hforest, heq₁] at heq
        cases heq
        exact hperm
    have hroot : ∀ x ∈ PairingHeap.nodes t', x ≠ t.1 := fun x hx => ne_of_mem_of_not_mem (hperm.mem_iff.1 hx) hnot
    refine ⟨_, rfl, Function.update_self .., fun x hx => ?_, .inr ⟨t', ⟨rfl, ?_, hperm.nodup_iff.2 hnodup, ?_⟩, hperm⟩⟩
    · refine (Function.update_of_ne (ne_of_mem_of_not_mem List.mem_cons_self hx).symm ..).trans (hsame x fun hmem => ?_)
      exact hx (List.mem_cons_of_mem _ hmem)
    · refine hlinked.frame fun x hx => Function.update_of_ne (hroot x ?_) ..
      rw [nodes_node, Forest.nodes, List.append_nil] at hx
      exact hx
    · exact ordered_combine (Ordered.all ht.ordered) heq

theorem Holds.remove (ht : Holds less h t) {v : ι} (hv : v ∈ PairingHeap.nodes t) {turns : Nat}
    (hturns : (PairingHeap.nodes t).length ≤ turns) :
    ∃ h' members, h.remove less turns v = .ok h' ∧ h'.fields v = .default ∧
      (∀ x, x ∉ PairingHeap.nodes t → h'.fields x = h.fields x) ∧ (PairingHeap.nodes t).Perm (v :: members) ∧
        Contains less h' members := by
  rcases List.mem_cons.1 hv with rfl | hmem
  · obtain ⟨h', hdelete, hclear, hsame, hcontains⟩ := ht.deleteMin hturns
    have hprev : (h.fields t.1).prev = none := ht.linked.2.1
    unfold Intrusive.remove
    simp only [hprev, hdelete]
    exact ⟨h', t.2.nodes, rfl, hclear, hsame, .refl _, hcontains⟩
  obtain ⟨hnot, hnodup⟩ := List.nodup_cons.1 ht.nodup
  have hne : t.1 ≠ v := (ne_of_mem_of_not_mem hmem hnot).symm
  obtain ⟨p, hprev⟩ := ht.linked.2.2.1.exists_prev hmem
  obtain ⟨⟨rest, below⟩, hcut⟩ := Option.ne_none_iff_exists'.1 fun hnone => cut_eq_none.1 hnone hmem
  have hcutTree : cut v (.node t.1 t.2 .nil) = some (.node t.1 rest .nil, below) := by
    rw [cut, if_neg hne, hcut]
  have htree : (Forest.node t.1 t.2 .nil).nodes = PairingHeap.nodes t := by
    rw [nodes_node, Forest.nodes, List.append_nil]
  have hrestTree : (Forest.node t.1 rest .nil).nodes = PairingHeap.nodes (t.1, rest) := by
    rw [nodes_node, Forest.nodes, List.append_nil]
  obtain ⟨⟨hbelow, hvn⟩, -, hdeep⟩ := detach_linked hprev ht.linked (htree ▸ ht.nodup) hcutTree
  obtain ⟨hrest, hp⟩ := hdeep fun heq => hne (Option.some.inj heq)
  rw [hrestTree] at hvn hp
  -- the node, what is below it and what remains
  have hperm : (PairingHeap.nodes t).Perm (v :: (below.nodes ++ PairingHeap.nodes (t.1, rest))) := by
    have hall := perm_cut hcutTree
    rwa [htree, hrestTree] at hall
  obtain ⟨hvNot, hnodupAll⟩ := List.nodup_cons.1 (hperm.nodup_iff.1 ht.nodup)
  obtain ⟨hnodupBelow, hnodupRest, hdisjoint⟩ := List.nodup_append.1 hnodupAll
  rw [List.mem_append, not_or] at hvNot
  have hordered := Ordered.cut ht.ordered hcut
  have hpv : p ≠ v := fun heq => hvNot.2 (heq ▸ hp)
  obtain ⟨hvChild, hvNext, hvPrev⟩ := detach_links h.fields v p v
  rw [if_neg fun heq => hpv heq.1.symm] at hvChild
  rw [if_pos rfl] at hvNext hvPrev
  have hsame : ∀ x, x ∉ PairingHeap.nodes t → detach h.fields v p x = h.fields x := by
    intro x hx
    rw [hperm.mem_iff, List.mem_cons, List.mem_append, not_or, not_or] at hx
    exact detach_of_ne hx.1 (fun heq => hx.2.2 (heq ▸ hp)) fun heq => hx.2.2 (hvn x heq.symm)
  have hsameBelow : ∀ x ∈ below.nodes, detach h.fields v p x = h.fields x := by
    intro x hx
    refine detach_of_ne (ne_of_mem_of_not_mem hx hvNot.1) (hdisjoint x hx p hp) fun heq => ?_
    exact hdisjoint x hx x (hvn x heq.symm) rfl
  unfold Intrusive.remove
  simp only [hprev]
  cases hc : (detach h.fields v p v).child with
  | none =>
    rw [hvChild] at hc
    rw [hc] at hbelow
    rw [hbelow.eq_nil, Forest.nodes, List.nil_append] at hperm
    refine ⟨_, PairingHeap.nodes (t.1, rest), rfl, ?_, hsame, hperm, .inr ⟨(t.1, rest), ⟨ht.root, hrest, hnodupRest, hordered.1⟩, .refl _⟩⟩
    exact field_ext (hvChild.trans hc) hvPrev hvNext
  | some child =>
    have hcold := hc
    rw [hvChild] at hcold
    rw [hcold] at hbelow
    let fields := setChild (detach h.fields v p) v none
    have hsetChild : ∀ x, x ≠ v → fields x = detach h.fields v p x := fun x hx => Function.update_of_ne hx ..
    have hbelow' : Linked fields (some v) (some child) below := hbelow.frame fun x hx =>
      (hsetChild x (ne_of_mem_of_not_mem hx hvNot.1)).trans (hsameBelow x hx)
    have hlength : below.nodes.length < turns := by
      have hlength := hperm.length_eq
      rw [List.length_cons, List.length_append] at hlength
      omega
    obtain ⟨fields', s, hcombine, heq, hlinked, hframe⟩ := combineSiblings_returns less hbelow' hnodupBelow hlength
    have hpermBelow : (PairingHeap.nodes s).Perm below.nodes := by
      cases below with
      | nil => cases hbelow
      | node u ubelow unext =>
        obtain ⟨s', heq', hperm'⟩ := @exists_combine ι less u ubelow unext
        rw [heq'] at heq
        cases heq
        exact hperm'
    have hrest' : Linked fields' none (some t.1) (.node t.1 rest .nil) := by
      refine hrest.frame fun x hx => ?_
      rw [hrestTree] at hx
      exact (hframe x fun hmem => hdisjoint x hmem x hx rfl).trans (hsetChild x (ne_of_mem_of_not_mem hx hvNot.2))
    have hnodupBoth : (PairingHeap.nodes s ++ PairingHeap.nodes (t.1, rest)).Nodup :=
      (hpermBelow.append_right _).nodup_iff.2 hnodupAll
    obtain ⟨hholds, hmelded⟩ := holds_meld (t := (t.1, rest)) hlinked hrest' hnodupBoth
      (ordered_combine (Ordered.all hordered.2) heq) hordered.1
    have hpermBoth : (PairingHeap.nodes (link less s (t.1, rest))).Perm (below.nodes ++ PairingHeap.nodes (t.1, rest)) :=
      (perm_link s (t.1, rest)).trans (hpermBelow.append_right _)
    have hnotBoth : ∀ x, x ∉ below.nodes → x ∉ PairingHeap.nodes (t.1, rest) →
        (meld less fields' s.1 t.1).1 x = fields x := by
      intro x hx hx'
      refine (hmelded x ?_).trans (hframe x hx)
      rw [List.mem_append, hpermBelow.mem_iff, not_or]
      exact ⟨hx, hx'⟩
    have hcombine' : combineSiblings less turns (setChild (detach h.fields v p) v none) child = .ok (fields', s.1) := hcombine
    simp only [hcombine', ht.root]
    refine ⟨_, below.nodes ++ PairingHeap.nodes (t.1, rest), rfl, ?_, fun x hx => ?_, hperm, .inr ⟨_, hholds, hpermBoth⟩⟩
    · refine (hnotBoth v hvNot.1 hvNot.2).trans ?_
      refine field_ext ?_ ?_ ?_
      · rw [child_setChild, if_pos rfl]
        rfl
      · rw [prev_setChild, hvPrev]
        rfl
      · rw [next_setChild, hvNext]
        rfl
    · have hx' := hx
      rw [hperm.mem_iff, List.mem_cons, List.mem_append, not_or, not_or] at hx'
      exact (hnotBoth x hx'.2.1 hx'.2.2).trans ((hsetChild x hx'.1).trans (hsame x hx))

end Operations

/-! ### What is in the heap -/

/-- The nodes from `first` on, each before those below it, and these before those after it -/
inductive Visits (fields : Fields ι) : Option ι → List ι → Prop
  | null : Visits fields none []
  | node {v : ι} {below after : List ι} (child : Visits fields (fields v).child below) (next : Visits fields (fields v).next after) :
      Visits fields (some v) (v :: (below ++ after))

/-- A node can be reached by following links to children and to siblings. -/
inductive Reaches (fields : Fields ι) : Option ι → ι → Prop
  | here (v : ι) : Reaches fields (some v) v
  | child {v x : ι} (h : Reaches fields (fields v).child x) : Reaches fields (some v) x
  | next {v x : ι} (h : Reaches fields (fields v).next x) : Reaches fields (some v) x

section
omit [DecidableEq ι]
variable {fields : Fields ι}

theorem Linked.visits : ∀ {f : Forest ι} {prev first : Option ι}, Linked fields prev first f → Visits fields first f.nodes
  | .nil, _, _, h => by
    cases h
    exact .null
  | .node _ _ _, _, _, h => by
    cases h.1
    exact .node h.2.2.1.visits h.2.2.2.visits

theorem Visits.mem_iff {first : Option ι} {l : List ι} (h : Visits fields first l) (x : ι) : x ∈ l ↔ Reaches fields first x := by
  induction h with
  | null =>
    refine ⟨fun hx => absurd hx List.not_mem_nil, fun hx => ?_⟩
    cases hx
  | node child next ihChild ihNext =>
    rw [List.mem_cons, List.mem_append, ihChild, ihNext]
    constructor
    · intro hx
      rcases hx with rfl | hx | hx
      · exact .here _
      · exact .child hx
      · exact .next hx
    · intro hx
      cases hx with
      | here => exact .inl rfl
      | child hx => exact .inr (.inl hx)
      | next hx => exact .inr (.inr hx)

/-- The previous node of a first child is its parent, and that of a sibling is the one before it. -/
theorem Linked.consistent {v : ι} : ∀ {f : Forest ι} {prev first : Option ι}, Linked fields prev first f → v ∈ f.nodes →
    (∀ c, (fields v).child = some c → (fields c).prev = some v) ∧ ∀ n, (fields v).next = some n → (fields n).prev = some v
  | .nil, _, _, _, hv => absurd hv List.not_mem_nil
  | .node w child next, _, _, h, hv => by
    obtain ⟨-, -, hchild, hnext⟩ := h
    rcases List.mem_cons.1 hv with rfl | hv
    · refine ⟨fun c hc => ?_, fun n hn => ?_⟩
      · rw [hc] at hchild
        exact hchild.prev_first
      · rw [hn] at hnext
        exact hnext.prev_first
    · rcases List.mem_append.1 hv with hv | hv
      · exact hchild.consistent hv
      · exact hnext.consistent hv

end

/-! ### Runs -/

section Runs
variable (less : ι → ι → Bool)

/-- Runs from a heap without a root, to a heap that has some nodes. Other nodes were removed, and not inserted again. -/
inductive Run : Intrusive ι → Set ι → Set ι → Prop
  | init (fields : Fields ι) : Run ⟨fields, none⟩ ∅ ∅
  | insert {h : Intrusive ι} {members removed : Set ι} {v : ι} (run : Run h members removed) (fresh : v ∉ members)
      (clear : h.fields v = .default) : Run (h.insert less v) (insert v members) (removed \ {v})
  | deleteMin {h h' : Intrusive ι} {members removed : Set ι} {out : Option ι} {turns : Nat} (run : Run h members removed)
      (ok : h.deleteMin less turns = .ok (out, h')) : Run h' {x ∈ members | out ≠ some x} {x | out = some x ∨ x ∈ removed}
  | remove {h h' : Intrusive ι} {members removed : Set ι} {v : ι} {turns : Nat} (run : Run h members removed) (mem : v ∈ members)
      (ok : h.remove less turns v = .ok h') : Run h' (members \ {v}) (insert v removed)

variable {less} {h h' : Intrusive ι} {members removed : Set ι}

/-- The nodes that are in the heap, and those that have no links -/
structure Good (less : ι → ι → Bool) (h : Intrusive ι) (members removed : Set ι) : Prop where
  contains : ∃ l, Contains less h l ∧ ∀ x, x ∈ members ↔ x ∈ l
  removed : ∀ x ∈ removed, x ∉ members ∧ h.fields x = .default

variable {turns turns' : Nat} {v : ι}

theorem combineSiblings_mono {fields : Fields ι} {left : ι} {result : Fields ι × ι}
    (hok : combineSiblings less turns fields left = .ok result) (hle : turns ≤ turns') :
    combineSiblings less turns' fields left = .ok result := by
  unfold combineSiblings at hok ⊢
  obtain ⟨s, hright, hleft⟩ := bind_eq_ok.1 hok
  exact bind_eq_ok.2 ⟨s, loop_mono hright hle, loop_mono hleft hle⟩

theorem deleteMin_mono {result : Option ι × Intrusive ι} (hok : h.deleteMin less turns = .ok result)
    (hle : turns ≤ turns') : h.deleteMin less turns' = .ok result := by
  unfold Intrusive.deleteMin at hok ⊢
  cases hroot : h.root with
  | none => simpa only [hroot] using hok
  | some root =>
    simp only [hroot] at hok ⊢
    cases hc : (h.fields root).child with
    | none => simpa only [hc] using hok
    | some child =>
      simp only [hc] at hok ⊢
      obtain ⟨combined, hcombine, hok⟩ := bind_eq_ok.1 hok
      exact bind_eq_ok.2 ⟨combined, combineSiblings_mono hcombine hle, hok⟩

theorem remove_mono (hok : h.remove less turns v = .ok h') (hle : turns ≤ turns') :
    h.remove less turns' v = .ok h' := by
  unfold Intrusive.remove at hok ⊢
  cases hprev : (h.fields v).prev with
  | none =>
    simp only [hprev] at hok ⊢
    obtain ⟨deleted, hdelete, hok⟩ := bind_eq_ok.1 hok
    exact bind_eq_ok.2 ⟨deleted, deleteMin_mono hdelete hle, hok⟩
  | some p =>
    simp only [hprev] at hok ⊢
    cases hc : (detach h.fields v p v).child with
    | none => simpa only [hc] using hok
    | some child =>
      simp only [hc] at hok ⊢
      obtain ⟨combined, hcombine, hok⟩ := bind_eq_ok.1 hok
      exact bind_eq_ok.2 ⟨combined, combineSiblings_mono hcombine hle, hok⟩

variable [IsStrictWeakOrder ι fun a b => less a b = true]

omit [DecidableEq ι] [IsStrictWeakOrder ι fun a b => less a b = true] in
/-- A heap without a root has no nodes, and one with a root has the nodes of a tree. -/
theorem Good.cases (hgood : Good less h members removed) : (h.root = none ∧ ∀ x, x ∉ members) ∨
    ∃ t, Holds less h t ∧ ∀ x, x ∈ members ↔ x ∈ PairingHeap.nodes t := by
  obtain ⟨l, hcontains, hmem⟩ := hgood.contains
  rcases hcontains with ⟨hroot, rfl⟩ | ⟨t, ht, hperm⟩
  · exact .inl ⟨hroot, fun x hx => absurd ((hmem x).1 hx) List.not_mem_nil⟩
  · exact .inr ⟨t, ht, fun x => (hmem x).trans hperm.mem_iff.symm⟩

theorem Good.insert (hgood : Good less h members removed) (hfresh : v ∉ members) (hclear : h.fields v = .default) :
    Good less (h.insert less v) (Insert.insert v members) (removed \ {v}) := by
  rcases hgood.cases with ⟨hroot, hnone⟩ | ⟨t, ht, hmem⟩
  · obtain ⟨hholds, hfields⟩ := insert_empty less hroot hclear
    refine ⟨⟨[v], .inr ⟨_, hholds, .refl _⟩, fun x => ?_⟩, fun x hx => ⟨fun hmem => ?_, ?_⟩⟩
    · simp [hnone x]
    · rcases hmem with rfl | hmem
      · exact hx.2 rfl
      · exact hnone x hmem
    · rw [hfields]
      exact (hgood.removed x hx.1).2
  · obtain ⟨hholds, hsame⟩ := ht.insert (fun hv => hfresh ((hmem v).2 hv)) hclear
    refine ⟨⟨_, .inr ⟨_, hholds, perm_link (v, .nil) t⟩, fun x => ?_⟩, fun x hx => ⟨fun hx' => ?_, ?_⟩⟩
    · rw [Set.mem_insert_iff, hmem]
      simp [PairingHeap.nodes, Forest.nodes]
    · rcases hx' with rfl | hx'
      · exact hx.2 rfl
      · exact (hgood.removed x hx.1).1 hx'
    · rw [hsame x hx.2 fun hx' => (hgood.removed x hx.1).1 ((hmem x).2 hx')]
      exact (hgood.removed x hx.1).2

omit [DecidableEq ι] [IsStrictWeakOrder ι fun a b => less a b = true] in
/-- One node is taken out. It has no links, and nodes that were out of the heap keep theirs. -/
theorem Good.without (hgood : Good less h members removed) {nodes l : List ι} (hmem : ∀ x, x ∈ members ↔ x ∈ nodes)
    (hclear : h'.fields v = .default) (hsame : ∀ x, x ∉ nodes → h'.fields x = h.fields x) (hnodup : nodes.Nodup)
    (hperm : nodes.Perm (v :: l)) (hcontains : Contains less h' l) :
    Good less h' (members \ {v}) (Insert.insert v removed) := by
  obtain ⟨hnot, -⟩ := List.nodup_cons.1 (hperm.nodup_iff.1 hnodup)
  refine ⟨⟨l, hcontains, fun x => ?_⟩, fun x hx => ⟨fun hx' => ?_, ?_⟩⟩
  · rw [Set.mem_sdiff, Set.mem_singleton_iff, hmem, hperm.mem_iff, List.mem_cons]
    constructor
    · intro hx
      exact hx.1.resolve_left hx.2
    · intro hx
      exact ⟨.inr hx, ne_of_mem_of_not_mem hx hnot⟩
  · rcases hx with rfl | hx
    · exact hx'.2 rfl
    · exact (hgood.removed x hx).1 hx'.1
  · rcases hx with rfl | hx
    · exact hclear
    · rw [hsame x fun hx' => (hgood.removed x hx).1 ((hmem x).2 hx')]
      exact (hgood.removed x hx).2

/-- With enough turns, the root is deleted. -/
theorem Good.deleteMin (hgood : Good less h members removed) : ∃ bound h', (∀ turns, bound ≤ turns →
    h.deleteMin less turns = .ok (h.root, h')) ∧ Good less h' {x ∈ members | h.root ≠ some x} {x | h.root = some x ∨ x ∈ removed} := by
  rcases hgood.cases with ⟨hroot, hnone⟩ | ⟨t, ht, hmem⟩
  · refine ⟨0, h, fun turns _ => ?_, ?_⟩
    · unfold Intrusive.deleteMin
      rw [hroot]
    · simpa [hroot] using hgood
  · obtain ⟨h', hdelete, hclear, hsame, hcontains⟩ := ht.deleteMin (Nat.le_refl _)
    refine ⟨(PairingHeap.nodes t).length, h', fun turns hturns => ?_, ?_⟩
    · rw [ht.root]
      exact deleteMin_mono hdelete hturns
    · have hleft : {x ∈ members | h.root ≠ some x} = members \ {t.1} := by
        ext x
        simp [ht.root, eq_comm]
      have hgone : {x | h.root = some x ∨ x ∈ removed} = Insert.insert t.1 removed := by
        ext x
        simp [ht.root, eq_comm]
      rw [hleft, hgone]
      exact hgood.without hmem hclear hsame ht.nodup (.refl _) hcontains

theorem Good.remove (hgood : Good less h members removed) (hv : v ∈ members) : ∃ bound h', (∀ turns, bound ≤ turns →
    h.remove less turns v = .ok h') ∧ Good less h' (members \ {v}) (Insert.insert v removed) := by
  rcases hgood.cases with ⟨-, hnone⟩ | ⟨t, ht, hmem⟩
  · exact absurd hv (hnone v)
  · obtain ⟨h', l, hremove, hclear, hsame, hperm, hcontains⟩ := ht.remove ((hmem v).1 hv) (Nat.le_refl _)
    exact ⟨(PairingHeap.nodes t).length, h', fun turns hturns => remove_mono hremove hturns,
      hgood.without hmem hclear hsame ht.nodup hperm hcontains⟩

theorem Run.good (run : Run less h members removed) : Good less h members removed := by
  induction run with
  | init fields => exact ⟨⟨[], .inl ⟨rfl, rfl⟩, fun x => by simp⟩, fun x hx => absurd hx (Set.notMem_empty x)⟩
  | insert run fresh clear ih => exact ih.insert fresh clear
  | @deleteMin h h' members removed out turns run ok ih =>
    obtain ⟨bound, h₁, hdelete, hgood⟩ := ih.deleteMin
    have hsame := (hdelete (bound + turns) (Nat.le_add_right ..)).symm.trans (deleteMin_mono ok (Nat.le_add_left ..))
    cases hsame
    exact hgood
  | @remove h h' members removed v turns run mem ok ih =>
    obtain ⟨bound, h₁, hremove, hgood⟩ := ih.remove mem
    have hsame := (hremove (bound + turns) (Nat.le_add_right ..)).symm.trans (remove_mono ok (Nat.le_add_left ..))
    cases hsame
    exact hgood

end Runs

/-- **The heap is a priority queue**, in every run. -/
theorem intrusive_priorityQueue (less : ι → ι → Bool) [IsStrictWeakOrder ι fun a b => less a b = true] {h : Intrusive ι}
    {members removed : Set ι} (run : Run less h members removed) :
    (h.peek = none ↔ members = ∅) ∧ (∀ m, h.peek = some m → m ∈ members ∧ ∀ x ∈ members, less x m = false) ∧
      (∃ l, Visits h.fields h.root l ∧ l.Nodup ∧ (∀ x, x ∈ members ↔ x ∈ l) ∧ ∀ x, x ∈ l ↔ Reaches h.fields h.root x) ∧
        (∀ v ∈ members, (∀ c, (h.fields v).child = some c → (h.fields c).prev = some v) ∧
          ∀ n, (h.fields v).next = some n → (h.fields n).prev = some v) ∧
        (∀ r, h.root = some r → (h.fields r).prev = none ∧ (h.fields r).next = none) ∧
        (∀ v ∈ removed, v ∉ members ∧ h.fields v = .default) ∧
        (∃ bound h', ∀ turns, bound ≤ turns → h.deleteMin less turns = .ok (h.peek, h')) ∧
        ∀ v ∈ members, ∃ bound h', ∀ turns, bound ≤ turns → h.remove less turns v = .ok h' := by
  have hgood := run.good
  obtain ⟨boundDelete, hDelete, hdelete, -⟩ := hgood.deleteMin
  have hremove : ∀ v ∈ members, ∃ bound h', ∀ turns, bound ≤ turns → h.remove less turns v = .ok h' := by
    intro v hv
    obtain ⟨bound, h', hremove, -⟩ := hgood.remove hv
    exact ⟨bound, h', hremove⟩
  unfold Intrusive.peek
  rcases hgood.cases with ⟨hroot, hnone⟩ | ⟨t, ht, hmem⟩
  · refine ⟨⟨fun _ => Set.eq_empty_iff_forall_notMem.2 hnone, fun _ => hroot⟩, fun m hm => ?_, ⟨[], ?_, List.nodup_nil, ?_, ?_⟩,
      fun v hv => absurd hv (hnone v), fun r hr => ?_, hgood.removed, ⟨boundDelete, hDelete, hdelete⟩, hremove⟩
    · rw [hroot] at hm
      cases hm
    · rw [hroot]
      exact .null
    · simp [hnone]
    · rw [hroot]
      exact fun x => Visits.null.mem_iff x
    · rw [hroot] at hr
      cases hr
  · have htree : (Forest.node t.1 t.2 .nil).nodes = PairingHeap.nodes t := by
      rw [nodes_node, Forest.nodes, List.append_nil]
    have hvisits := ht.linked.visits
    rw [htree] at hvisits
    refine ⟨⟨fun hnone => ?_, fun hempty => ?_⟩, fun m hm => ?_, ⟨_, ht.root ▸ hvisits, ht.nodup, hmem, ?_⟩, fun v hv => ?_,
      fun r hr => ?_, hgood.removed, ⟨boundDelete, hDelete, hdelete⟩, hremove⟩
    · rw [ht.root] at hnone
      cases hnone
    · have hroot : t.1 ∈ members := (hmem t.1).2 List.mem_cons_self
      rw [hempty] at hroot
      exact absurd hroot (Set.notMem_empty _)
    · rw [ht.root] at hm
      cases hm
      exact ⟨(hmem t.1).2 List.mem_cons_self, fun x hx => ht.ordered.not_less x ((hmem x).1 hx)⟩
    · rw [ht.root]
      exact fun x => hvisits.mem_iff x
    · exact ht.linked.consistent (by rw [htree]; exact (hmem v).1 hv)
    · rw [ht.root] at hr
      cases hr
      exact ⟨ht.linked.2.1, ht.linked.2.2.2⟩

/-- Numbers in their order, of which 3, 1 and 2 are inserted -/
theorem intrusive_priorityQueue_numbers : ∃ (h : Intrusive Nat) (members removed : Set Nat),
    Run (fun a b => decide (a < b)) h members removed ∧ 2 ∈ members ∧ 3 ∈ members ∧
      h.peek = some 1 ∧ ∀ x ∈ members, decide (x < 1) = false := by
  let less : Nat → Nat → Bool := fun a b => decide (a < b)
  have order : IsStrictWeakOrder Nat fun a b => less a b = true :=
    { irrefl := fun a => by simp [less]
      trans := fun a b c hab hbc => by simp only [less, decide_eq_true_eq] at *; omega
      incomp_trans := fun a b c hab hbc => by simp only [less, decide_eq_true_eq] at *; omega }
  let h : Intrusive Nat := (((⟨fun _ => .default, none⟩ : Intrusive Nat).insert less 3).insert less 1).insert less 2
  have run : Run less h (insert 2 (insert 1 (insert 3 ∅))) (((∅ \ {3}) \ {1}) \ {2}) :=
    .insert (.insert (.insert (.init _) (by simp) rfl) (by simp) rfl) (by simp) rfl
  have hqueue := intrusive_priorityQueue less run
  exact ⟨h, _, _, run, by simp, by simp, rfl, (hqueue.2.1 1 rfl).2⟩

end

end Funbun.Io
