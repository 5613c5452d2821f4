import Funbun.Io.HeapLinks

/-! Taking a node that is not the root out of a heap.

The link to the node is in its previous node, as a child or as a sibling. It is redirected to the sibling after the node, so that
the node is gone from the forest, with all that is below it. -/
namespace Funbun.Io
open Library Library.PairingHeap

section
variable {ι : Type} {fields : Fields ι}

theorem Linked.prev_first {v : ι} {prev : Option ι} : ∀ {f : Forest ι}, Linked fields prev (some v) f → (fields v).prev = prev
  | .nil, h => by cases h
  | .node _ _ _, h => by
    cases h.1
    exact h.2.1

theorem Linked.exists_prev {v : ι} : ∀ {f : Forest ι} {w : ι} {first : Option ι}, Linked fields (some w) first f → v ∈ f.nodes →
    ∃ p, (fields v).prev = some p
  | .nil, _, _, _, hv => absurd hv List.not_mem_nil
  | .node u _ _, w, _, ⟨_, hprev, hchild, hnext⟩, hv => by
    rcases List.mem_cons.1 hv with rfl | hv
    · exact ⟨w, hprev⟩
    · rcases List.mem_append.1 hv with hv | hv
      · exact hchild.exists_prev hv
      · exact hnext.exists_prev hv

theorem Linked.next_mem {v n : ι} (hn : (fields v).next = some n) : ∀ {f : Forest ι} {prev first : Option ι},
    Linked fields prev first f → v ∈ f.nodes → n ∈ f.nodes
  | .nil, _, _, _, hv => absurd hv List.not_mem_nil
  | .node w child next, _, _, ⟨_, _, hchild, hnext⟩, hv => by
    refine List.mem_cons_of_mem w (List.mem_append.2 ?_)
    rcases List.mem_cons.1 hv with rfl | hv
    · rw [hn] at hnext
      exact .inr hnext.first_mem
    · exact (List.mem_append.1 hv).imp (hchild.next_mem hn) (hnext.next_mem hn)

variable [DecidableEq ι] {v p : ι}

theorem detach_links (fields : Fields ι) (v p x : ι) :
    (detach fields v p x).child = (if x = p ∧ (fields p).child = some v then (fields v).next else (fields x).child) ∧
    (detach fields v p x).next = (if x = v then none else if x = p ∧ (fields p).child ≠ some v then (fields v).next
      else (fields x).next) ∧
    (detach fields v p x).prev = (if x = v then none else if some x = (fields v).next then some p else (fields x).prev) := by
  unfold detach
  cases hn : (fields v).next <;> by_cases hc : (fields p).child = some v <;> simp [hc]

/-- Nodes that are not around the one that is taken out -/
theorem detach_of_ne {x : ι} (hxv : x ≠ v) (hxp : x ≠ p) (hxn : some x ≠ (fields v).next) : detach fields v p x = fields x := by
  obtain ⟨hc, hn, hp⟩ := detach_links fields v p x
  rw [if_neg fun h => hxp h.1] at hc
  rw [if_neg hxv, if_neg fun h => hxp h.1] at hn
  rw [if_neg hxv, if_neg hxn] at hp
  exact field_ext hc hp hn

/-- The node before the one that is taken out holds the link to it, or is in the forest itself. -/
theorem detach_linked (hprev : (fields v).prev = some p) : ∀ {f rest below : Forest ι} {prev first : Option ι},
    Linked fields prev first f → f.nodes.Nodup → cut v f = some (rest, below) →
      (Linked fields (some v) (fields v).child below ∧ ∀ n, (fields v).next = some n → n ∈ rest.nodes) ∧
        (first = some v → p ∉ f.nodes → Linked (detach fields v p) (some p) (fields v).next rest) ∧
          (first ≠ some v → Linked (detach fields v p) prev first rest ∧ p ∈ rest.nodes)
  | .nil, _, _, _, _, _, _, hcut => by cases hcut
  | .node w child next, rest, below, prev, first, h, hnodup, hcut => by
    obtain ⟨rfl, hwPrev, hchild, hnext⟩ := h
    obtain ⟨hw, hnodup⟩ := List.nodup_cons.1 hnodup
    obtain ⟨hnodupChild, hnodupNext, hdisjoint⟩ := List.nodup_append.1 hnodup
    rw [List.mem_append, not_or] at hw
    rw [cut] at hcut
    by_cases hwv : w = v
    · rw [if_pos hwv] at hcut
      cases hcut
      subst hwv
      refine ⟨⟨hchild, fun n hn => ?_⟩, fun _ hp => ?_, fun hne => absurd rfl hne⟩
      · rw [hn] at hnext
        exact hnext.first_mem
      refine hnext.reattach hnodupNext fun x hx => ?_
      obtain ⟨hc, hn, hp'⟩ := detach_links fields w p x
      have hxw : x ≠ w := ne_of_mem_of_not_mem hx hw.2
      have hxp : x ≠ p := ne_of_mem_of_not_mem hx fun hmem => hp (List.mem_cons_of_mem w (List.mem_append_right _ hmem))
      rw [if_neg fun heq => hxp heq.1] at hc
      rw [if_neg hxw, if_neg fun heq => hxp heq.1] at hn
      rw [if_neg hxw] at hp'
      exact ⟨hc, hn, hp'⟩
    rw [if_neg hwv] at hcut
    have hfirst : some w ≠ some v := fun heq => hwv (Option.some.inj heq)
    cases hcutChild : cut v child with
    | some pair =>
      rw [hcutChild] at hcut
      cases hcut
      have hmem : v ∈ child.nodes := mem_of_cut hcutChild
      have hvn : ∀ n, some n = (fields v).next → n ∈ child.nodes := fun n hn => Linked.next_mem hn.symm hchild hmem
      have hwn : some w ≠ (fields v).next := fun heq => hw.1 (hvn w heq)
      obtain ⟨⟨hbelow, hvnRest⟩, hhead, hdeep⟩ := detach_linked hprev hchild hnodupChild hcutChild
      refine ⟨⟨hbelow, fun n hn => List.mem_cons_of_mem w (List.mem_append_left _ (hvnRest n hn))⟩,
        fun heq => absurd heq hfirst, fun _ => ?_⟩
      by_cases hslot : (fields w).child = some v
      · -- the node is the first child of `w`
        have hpw : w = p := Option.some.inj ((Linked.prev_first (hslot ▸ hchild)).symm.trans hprev)
        subst hpw
        have hrest := hhead hslot hw.1
        obtain ⟨hc, hn, hp⟩ := detach_links fields v w w
        rw [if_pos ⟨rfl, hslot⟩] at hc
        rw [if_neg hwv, if_neg fun heq => heq.2 hslot] at hn
        rw [if_neg hwv, if_neg hwn] at hp
        refine ⟨⟨rfl, hp.trans hwPrev, ?_, ?_⟩, List.mem_cons_self⟩
        · rw [hc]
          exact hrest
        · rw [hn]
          refine hnext.frame fun x hx => detach_of_ne ?_ (ne_of_mem_of_not_mem hx hw.2) ?_
          · exact fun heq => hdisjoint v hmem x hx heq.symm
          · exact fun heq => hdisjoint x (hvn x heq) x hx rfl
      · obtain ⟨hrest, hp⟩ := hdeep hslot
        have hpChild : p ∈ child.nodes := (perm_cut hcutChild).mem_iff.2 (List.mem_cons_of_mem v (List.mem_append_right _ hp))
        have hsame : detach fields v p w = fields w := detach_of_ne hwv (fun heq => hw.1 (heq ▸ hpChild)) hwn
        refine ⟨⟨rfl, by rw [hsame, hwPrev], ?_, ?_⟩, List.mem_cons_of_mem w (List.mem_append_left _ hp)⟩
        · rw [hsame]
          exact hrest
        · rw [hsame]
          refine hnext.frame fun x hx => detach_of_ne ?_ ?_ ?_
          · exact fun heq => hdisjoint v hmem x hx heq.symm
          · exact fun heq => hdisjoint p hpChild x hx heq.symm
          · exact fun heq => hdisjoint x (hvn x heq) x hx rfl
    | none =>
      rw [hcutChild] at hcut
      have hnotChild : v ∉ child.nodes := cut_eq_none.1 hcutChild
      cases hcutNext : cut v next with
      | none =>
        rw [hcutNext] at hcut
        cases hcut
      | some pair =>
        rw [hcutNext] at hcut
        cases hcut
        have hmem : v ∈ next.nodes := mem_of_cut hcutNext
        have hvn : ∀ n, some n = (fields v).next → n ∈ next.nodes := fun n hn => Linked.next_mem hn.symm hnext hmem
        have hwn : some w ≠ (fields v).next := fun heq => hw.2 (hvn w heq)
        obtain ⟨rest, below⟩ := pair
        obtain ⟨⟨hbelow, hvnRest⟩, hhead, hdeep⟩ := detach_linked hprev hnext hnodupNext hcutNext
        refine ⟨⟨hbelow, fun n hn => List.mem_cons_of_mem w (List.mem_append_right _ (hvnRest n hn))⟩,
          fun heq => absurd heq hfirst, fun _ => ?_⟩
        by_cases hslot : (fields w).next = some v
        · -- the node is the sibling after `w`
          have hpw : w = p := Option.some.inj ((Linked.prev_first (hslot ▸ hnext)).symm.trans hprev)
          subst hpw
          have hrest := hhead hslot hw.2
          have hnotSlot : (fields w).child ≠ some v := fun heq => hnotChild (by rw [heq] at hchild; exact hchild.first_mem)
          obtain ⟨hc, hn, hp⟩ := detach_links fields v w w
          rw [if_neg fun heq => hnotSlot heq.2] at hc
          rw [if_neg hwv, if_pos ⟨rfl, hnotSlot⟩] at hn
          rw [if_neg hwv, if_neg hwn] at hp
          refine ⟨⟨rfl, hp.trans hwPrev, ?_, ?_⟩, List.mem_cons_self⟩
          · rw [hc]
            refine hchild.frame fun x hx => detach_of_ne (ne_of_mem_of_not_mem hx hnotChild) (ne_of_mem_of_not_mem hx hw.1) ?_
            exact fun heq => hdisjoint x hx x (hvn x heq) rfl
          · rw [hn]
            exact hrest
        · obtain ⟨hrest, hp⟩ := hdeep hslot
          have hpNext : p ∈ next.nodes := (perm_cut hcutNext).mem_iff.2 (List.mem_cons_of_mem v (List.mem_append_right _ hp))
          have hsame : detach fields v p w = fields w := detach_of_ne hwv (fun heq => hw.2 (heq ▸ hpNext)) hwn
          refine ⟨⟨rfl, by rw [hsame, hwPrev], ?_, ?_⟩, List.mem_cons_of_mem w (List.mem_append_right _ hp)⟩
          · rw [hsame]
            refine hchild.frame fun x hx => detach_of_ne (ne_of_mem_of_not_mem hx hnotChild) ?_ ?_
            · exact fun heq => hdisjoint x hx p hpNext heq
            · exact fun heq => hdisjoint x hx x (hvn x heq) rfl
          · rw [hsame]
            exact hrest

end

end Funbun.Io
