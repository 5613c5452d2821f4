import Funbun.Ast.Symbol
import Funbun.Library.Forest
import Funbun.Library.Fuel

/-! The symbols of a map are a forest whose trees are the classes that merging makes. -/
namespace Funbun.Ast
open Library Forest Fuel

namespace Map
variable {map map' : Map} {a b r : Ref}

/-! ### Symbols of the map -/

/-- A reference of a symbol of the map. -/
def InRange (map : Map) (ref : Ref) : Prop := ref.tag = .symbol ∧ (map.getConst ref).isSome

instance (map : Map) (ref : Ref) : Decidable (map.InRange ref) := inferInstanceAs (Decidable (_ ∧ _))

/-- The link of a symbol, if it has one. -/
def linkOf (map : Map) (ref : Ref) : Option Ref :=
  if ref.tag = .symbol then (map.getConst ref).bind fun symbol => if symbol.link.isValid then some symbol.link else none
  else none

/-- A symbol without its link. -/
def contents (map : Map) (ref : Ref) : Option Symbol := (map.getConst ref).map fun symbol => {symbol with link := .none}

theorem lookup_eq_getConst (h : map.InRange a) : map.lookup a = map.getConst a := by
  have hsome := h.2
  unfold getConst at hsome ⊢
  split at hsome
  · cases hsome
  · rename_i hnot
    rw [if_neg hnot]

theorem getConst_update (ha : a.tag = .symbol) (hb : b.tag = .symbol) (f : Symbol → Symbol) :
    (map.update a f).getConst b = if b = a then (map.getConst b).map f else map.getConst b := by
  obtain ⟨inner, source, tag⟩ := a
  obtain ⟨inner', source', tag'⟩ := b
  cases ha
  cases hb
  simp only [getConst, update, lookup, Ref.mk.injEq, and_true, List.getElem?_modify]
  split
  · split <;> rfl
  · by_cases hsource : source = source'
    · subst hsource
      simp only [and_true]
      cases map.symbolsForSource[source]? with
      | none => simp
      | some symbols =>
        simp only [Option.bind_some]
        by_cases hinner : inner = inner'
        · subst hinner
          simp
        · simp [hinner, Ne.symm hinner]
    · simp [hsource, Ne.symm hsource]

theorem InRange.of_linkOf (h : map.linkOf a = some b) : map.InRange a := by
  unfold linkOf at h
  split at h
  · rename_i htag
    obtain ⟨symbol, hsymbol, -⟩ := Option.bind_eq_some_iff.mp h
    exact ⟨htag, hsymbol ▸ rfl⟩
  · cases h

theorem InRange.getConst (h : map.InRange a) : ∃ symbol, map.getConst a = some symbol := Option.isSome_iff_exists.mp h.2

theorem linkOf_eq {symbol : Symbol} (h : map.InRange a) (hsymbol : map.getConst a = some symbol) :
    map.linkOf a = if symbol.link.isValid then some symbol.link else none := by
  rw [linkOf, if_pos h.1, hsymbol]
  rfl

theorem isValid_of_inRange (h : map.InRange a) : a.isValid = true := by
  unfold Ref.isValid
  rw [h.1]
  rfl

theorem linkOf_setLink (ha : map.InRange a) (hb : b.isValid = true) :
    (map.setLink a b).linkOf = Function.update map.linkOf a (some b) := by
  funext c
  by_cases hc : c.tag = .symbol
  · rw [linkOf, if_pos hc, setLink, getConst_update ha.1 hc]
    by_cases hca : c = a
    · subst hca
      obtain ⟨symbol, hsymbol⟩ := ha.getConst
      rw [if_pos rfl, Function.update_self, hsymbol]
      exact if_pos hb
    · rw [if_neg hca, Function.update_of_ne hca, linkOf, if_pos hc]
  · have hca : c ≠ a := by
      rintro rfl
      exact hc ha.1
    rw [Function.update_of_ne hca, linkOf, linkOf, if_neg hc, if_neg hc]

/-- A change that leaves the links. -/
theorem linkOf_update (ha : a.tag = .symbol) {f : Symbol → Symbol} (hf : ∀ symbol, (f symbol).link = symbol.link) :
    (map.update a f).linkOf = map.linkOf := by
  funext b
  unfold linkOf
  split
  · rename_i hb
    rw [getConst_update ha hb]
    split
    · cases map.getConst b with
      | none => rfl
      | some symbol =>
        show (if (f symbol).link.isValid then some (f symbol).link else none) = _
        rw [hf]
        rfl
    · rfl
  · rfl

theorem inRange_update (ha : a.tag = .symbol) (f : Symbol → Symbol) : (map.update a f).InRange b ↔ map.InRange b := by
  refine and_congr_right fun hb => ?_
  rw [getConst_update ha hb]
  split
  · rw [Option.isSome_map]
  · rfl

/-- The maps have the same symbols, but for their links. -/
structure Same (map map' : Map) : Prop where
  sources : map'.symbolsForSource.length = map.symbolsForSource.length
  contents : ∀ ref : Ref, ref.tag = .symbol → map'.contents ref = map.contents ref

theorem Same.refl (map : Map) : Same map map := ⟨rfl, fun _ _ => rfl⟩

theorem Same.trans {map'' : Map} (h : Same map map') (h' : Same map' map'') : Same map map'' where
  sources := h'.sources.trans h.sources
  contents ref href := (h'.contents ref href).trans (h.contents ref href)

theorem Same.inRange (h : Same map map') : map'.InRange a ↔ map.InRange a := by
  unfold InRange
  refine and_congr_right fun htag => ?_
  have heq := h.contents a htag
  unfold Map.contents at heq
  rw [← Option.isSome_map (f := fun symbol : Symbol => {symbol with link := .none}), heq, Option.isSome_map]

theorem sources_update (map : Map) (ref : Ref) (f : Symbol → Symbol) :
    (map.update ref f).symbolsForSource.length = map.symbolsForSource.length := List.length_modify ..

theorem same_setLink (ha : a.tag = .symbol) (link : Ref) : Same map (map.setLink a link) where
  sources := sources_update map a _
  contents := by
    intro ref href
    rw [contents, contents, setLink, getConst_update ha href]
    split
    · rw [Option.map_map]
      rfl
    · rfl

/-- A forest of symbols, with the representative of each. -/
structure Linked (map : Map) (rep : Ref → Ref) : Prop where
  root : ∀ a, Root map.linkOf a (rep a)
  inRange : ∀ a b, map.linkOf a = some b → map.InRange b

namespace Linked
variable {rep : Ref → Ref}

theorem inRange_of_above (h : Linked map rep) (ha : map.InRange a) (hab : Above map.linkOf a b) : map.InRange b := by
  induction hab with
  | refl => exact ha
  | tail _ hstep => exact h.inRange _ _ hstep

theorem inRange_rep (h : Linked map rep) (ha : map.InRange a) : map.InRange (rep a) :=
  h.inRange_of_above ha (h.root a).above

theorem rep_eq_of_link (h : Linked map rep) (ha : map.linkOf a = some b) : rep b = rep a :=
  (h.root b).unique ((h.root a).of_up ha)

/-- A symbol that has a link may be linked to another node of its tree that is not under it. -/
theorem redirect (h : Linked map rep) (ha : map.linkOf a ≠ none) (hb : map.InRange b) (hrep : rep b = rep a)
    (hnot : ¬Above map.linkOf b a) : Linked (map.setLink a b) rep := by
  obtain ⟨c, hc⟩ := Option.ne_none_iff_exists'.mp ha
  have hlink := linkOf_setLink (InRange.of_linkOf hc) (isValid_of_inRange hb)
  constructor
  · intro c
    rw [hlink]
    exact (h.root a).redirect ha (hrep ▸ h.root b) hnot (h.root c)
  · intro c d hcd
    rw [(same_setLink (InRange.of_linkOf hc).1 b).inRange]
    rw [hlink] at hcd
    by_cases hca : c = a
    · subst hca
      rw [Function.update_self] at hcd
      cases hcd
      exact hb
    · rw [Function.update_of_ne hca] at hcd
      exact h.inRange c d hcd

end Linked

/-! ### Merging -/

/-- What a symbol holds when another class was merged into its own. -/
def mergedContents (map : Map) (rep : Ref → Ref) (old new ref : Ref) : Option Symbol :=
  if rep old ≠ rep new ∧ ref = rep new then
    (map.contents ref).bind fun symbol => (map.contents (rep old)).map symbol.mergeContentsWith
  else map.contents ref

/-- What `merge` owes: the tree of `old` joins that of `new`, and what is above the result was above both. -/
structure Merged (map : Map) (rep : Ref → Ref) (old new merged : Ref) (map' : Map) : Prop where
  linked : Linked map' (join rep old new)
  sources : map'.symbolsForSource.length = map.symbolsForSource.length
  contents : ∀ ref : Ref, ref.tag = .symbol → map'.contents ref = mergedContents map rep old new ref
  inRange : ∀ ref, map'.InRange ref ↔ map.InRange ref
  result : map.InRange merged
  represents : join rep old new merged = rep new
  above : ∀ ref, Above map'.linkOf merged ref → (Above map.linkOf old ref ∨ ref = rep new) ∧ Above map.linkOf new ref

theorem join_of_eq {rep : Ref → Ref} {old new : Ref} (h : rep old = rep new) : join rep old new = rep := by
  funext ref
  unfold join
  split
  · rename_i heq
    exact (heq.trans h).symm
  · rfl

theorem join_old (rep : Ref → Ref) (old new : Ref) : join rep old new old = rep new := if_pos rfl

theorem join_new (rep : Ref → Ref) (old new : Ref) : join rep old new new = rep new := by
  unfold join
  split <;> rfl

namespace Merged
variable {rep : Ref → Ref} {old new old' new' merged link : Ref}

/-- A symbol that is already the other one is not merged. -/
theorem same (h : Linked map rep) (hold : map.InRange old) : Merged map rep old old old map where
  linked := by
    rw [join_of_eq rfl]
    exact h
  sources := rfl
  contents := fun ref _ => (if_neg fun hne => hne.1 rfl).symm
  inRange := fun _ => Iff.rfl
  result := hold
  represents := join_old rep old old
  above := fun _ habove => ⟨.inl habove, habove⟩

/-- The link of a symbol on the way is set to the result: then the symbols below are merged that the others stand for. -/
theorem setLink (h : Linked map rep) (hm : Merged map rep old' new' merged map') (hold : rep old' = rep old)
    (hnew : rep new' = rep new) {ref : Ref} (hlink : map.linkOf ref = some link) (hrep : join rep old new ref = rep new)
    (hnot : ¬Above map'.linkOf merged ref)
    (habove : ∀ other, Above map'.linkOf merged other →
      (Above map.linkOf old other ∨ other = rep new) ∧ Above map.linkOf new other) :
    Merged map rep old new merged (map'.setLink ref merged) := by
  have hjoin : join rep old' new' = join rep old new := by
    funext ref
    unfold join
    rw [hold, hnew]
  have hlinked := hjoin ▸ hm.linked
  have hrange : map'.InRange ref := (hm.inRange ref).mpr (.of_linkOf hlink)
  have hway : map'.linkOf ref ≠ none := by
    intro hnone
    have hroot := (hlinked.root ref).eq_of_none hnone
    have hnone := (h.root new).link_eq_none
    rw [← hrep, hroot, hlink] at hnone
    cases hnone
  have hmerged : map'.InRange merged := (hm.inRange merged).mpr hm.result
  have hrepresents : join rep old new merged = rep new := hjoin ▸ hm.represents.trans hnew
  have hsame : Same map' (map'.setLink ref merged) := same_setLink hrange.1 merged
  constructor
  · exact hlinked.redirect hway hmerged (hrepresents.trans hrep.symm) hnot
  · exact hsame.sources.trans hm.sources
  · intro ref href
    rw [hsame.contents ref href, hm.contents ref href, mergedContents, mergedContents, hold, hnew]
  · exact fun ref => hsame.inRange.trans (hm.inRange ref)
  · exact hm.result
  · exact hrepresents
  · intro other hother
    rw [linkOf_setLink hrange (isValid_of_inRange hmerged)] at hother
    exact habove other (above_of_redirect hnot hother)

/-- The way up from `old` -/
theorem of_old (h : Linked map rep) (hlink : map.linkOf old = some link) (hm : Merged map rep link new merged map') :
    Merged map rep old new merged (map'.setLink old merged) := by
  refine hm.setLink h (h.rep_eq_of_link hlink) rfl hlink (join_old rep old new) (fun habove => ?_) fun other habove => ?_
  · rcases (hm.above old habove).1 with hlow | heq
    · exact (h.root old).not_above hlink hlow
    · have hnone := (h.root new).link_eq_none
      rw [← heq, hlink] at hnone
      cases hnone
  · exact ⟨(hm.above other habove).1.imp_left fun hlow => .head hlink hlow, (hm.above other habove).2⟩

/-- The way up from `new`, when `old` is a root -/
theorem of_new (h : Linked map rep) (hlink : map.linkOf new = some link) (hm : Merged map rep old link merged map') :
    Merged map rep old new merged (map'.setLink new merged) := by
  have hrep : rep link = rep new := h.rep_eq_of_link hlink
  refine hm.setLink h rfl hrep hlink (join_new rep old new) (fun habove => ?_) fun other habove => ?_
  · exact (h.root new).not_above hlink (hm.above new habove).2
  · exact ⟨hrep ▸ (hm.above other habove).1, .head hlink (hm.above other habove).2⟩

/-- Two roots -/
theorem attach (h : Linked map rep) (hold : map.InRange old) (hnew : map.InRange new) (hne : old ≠ new)
    (hlinkOld : map.linkOf old = none) (hlinkNew : map.linkOf new = none) {oldSymbol : Symbol}
    (hsymbol : map.getConst old = some oldSymbol) :
    Merged map rep old new new ((map.setLink old new).update new (·.mergeContentsWith oldSymbol)) := by
  have hrepOld : rep old = old := (h.root old).eq_of_none hlinkOld
  have hrepNew : rep new = new := (h.root new).eq_of_none hlinkNew
  have hlink : ((map.setLink old new).update new (·.mergeContentsWith oldSymbol)).linkOf =
      Function.update map.linkOf old (some new) := by
    rw [linkOf_update hnew.1 fun symbol => symbol.link_mergeContentsWith oldSymbol,
      linkOf_setLink hold (isValid_of_inRange hnew)]
  have hrange : ∀ ref, ((map.setLink old new).update new (·.mergeContentsWith oldSymbol)).InRange ref ↔ map.InRange ref := by
    intro ref
    rw [inRange_update hnew.1, Map.setLink, inRange_update hold.1]
  have hjoin : join rep old new = fun ref => if rep ref = old then new else rep ref := by
    funext ref
    rw [join, hrepOld, hrepNew]
  constructor
  · constructor
    · intro ref
      rw [hlink, hjoin]
      exact (h.root ref).attach hlinkOld hlinkNew hne.symm
    · intro ref other hlinked
      rw [hrange]
      rw [hlink] at hlinked
      by_cases href : ref = old
      · subst href
        rw [Function.update_self] at hlinked
        cases hlinked
        exact hnew
      · rw [Function.update_of_ne href] at hlinked
        exact h.inRange ref other hlinked
  · rw [sources_update, Map.setLink, sources_update]
  · intro ref href
    rw [mergedContents, hrepOld, hrepNew, Map.contents, getConst_update hnew.1 href]
    by_cases hnewRef : ref = new
    · subst hnewRef
      obtain ⟨newSymbol, hnewSymbol⟩ := hnew.getConst
      rw [if_pos rfl, if_pos ⟨hne, rfl⟩, Map.setLink, getConst_update hold.1 href, if_neg hne.symm, Map.contents,
        Map.contents, hsymbol, hnewSymbol]
      simp only [Option.map_some, Option.bind_some, Symbol.mergeContentsWith]
      split <;> rfl
    · rw [if_neg hnewRef, if_neg fun h => hnewRef h.2]
      exact (same_setLink hold.1 new).contents ref href
  · exact hrange
  · exact hnew
  · exact join_new rep old new
  · intro ref habove
    have hnone : ((map.setLink old new).update new (·.mergeContentsWith oldSymbol)).linkOf new = none := by
      rw [hlink, Function.update_of_ne hne.symm]
      exact hlinkNew
    rw [eq_of_above hnone habove, hrepNew]
    exact ⟨.inr rfl, .refl⟩

end Merged

theorem linkOf_of_valid {symbol : Symbol} (h : map.InRange a) (hsymbol : map.getConst a = some symbol)
    (hvalid : symbol.link.isValid = true) : map.linkOf a = some symbol.link := by
  rw [linkOf_eq h hsymbol, if_pos hvalid]

/-- A merge ends, and the tree of `old` joins that of `new`. -/
theorem merge_spec {rep : Ref → Ref} (h : Linked map rep) {old new : Ref} (hold : map.InRange old) (hnew : map.InRange new) :
    ∃ merged map', Settles (fun fuel => map.merge fuel old new) (merged, map') ∧ Merged map rep old new merged map' := by
  -- first up from `old`, then up from `new`
  have hway := h.root old
  generalize rep old = r at hway
  induction hway with
  | @up old link r hlink _ ih =>
    by_cases heq : old = new
    · subst heq
      exact ⟨old, map, .of_succ (.of_forall fun fuel => if_pos rfl), .same h hold⟩
    · obtain ⟨symbol, hsymbol⟩ := hold.getConst
      rw [linkOf_eq hold hsymbol] at hlink
      split at hlink
      · rename_i hvalid
        cases hlink
        have hlink := linkOf_of_valid hold hsymbol hvalid
        obtain ⟨merged, map', hsettles, hm⟩ := ih (h.inRange _ _ hlink)
        refine ⟨merged, map'.setLink old merged, .of_succ ?_, hm.of_old h hlink⟩
        have hstep : (fun fuel => map.merge (fuel + 1) old new) = fun fuel =>
            (map.merge fuel symbol.link new).map fun result => (result.1, result.2.setLink old result.1) := by
          funext fuel
          rw [merge, if_neg heq, hsymbol, Option.bind_some, if_pos hvalid]
        rw [hstep]
        exact hsettles.map _
      · cases hlink
  | @here old hnone =>
    obtain ⟨symbol, hsymbol⟩ := hold.getConst
    have hroot : ¬symbol.link.isValid = true := by
      intro hvalid
      rw [linkOf_of_valid hold hsymbol hvalid] at hnone
      cases hnone
    have hway := h.root new
    generalize rep new = r at hway
    induction hway with
    | @up new link r hlink _ ih =>
      by_cases heq : old = new
      · subst heq
        exact ⟨old, map, .of_succ (.of_forall fun fuel => if_pos rfl), .same h hold⟩
      · obtain ⟨newSymbol, hnewSymbol⟩ := hnew.getConst
        rw [linkOf_eq hnew hnewSymbol] at hlink
        split at hlink
        · rename_i hvalid
          cases hlink
          have hlink := linkOf_of_valid hnew hnewSymbol hvalid
          obtain ⟨merged, map', hsettles, hm⟩ := ih (h.inRange _ _ hlink)
          refine ⟨merged, map'.setLink new merged, .of_succ ?_, hm.of_new h hlink⟩
          have hstep : (fun fuel => map.merge (fuel + 1) old new) = fun fuel =>
              (map.merge fuel old newSymbol.link).map fun result => (result.1, result.2.setLink new result.1) := by
            funext fuel
            rw [merge, if_neg heq, hsymbol, Option.bind_some, if_neg hroot, hnewSymbol, Option.bind_some, if_pos hvalid]
          rw [hstep]
          exact hsettles.map _
        · cases hlink
    | @here new hnone' =>
      by_cases heq : old = new
      · subst heq
        exact ⟨old, map, .of_succ (.of_forall fun fuel => if_pos rfl), .same h hold⟩
      · obtain ⟨newSymbol, hnewSymbol⟩ := hnew.getConst
        have hroot' : ¬newSymbol.link.isValid = true := by
          intro hvalid
          rw [linkOf_of_valid hnew hnewSymbol hvalid] at hnone'
          cases hnone'
        refine ⟨new, _, .of_succ (.of_forall fun fuel => ?_), .attach h hold hnew heq hnone hnone' hsymbol⟩
        rw [merge, if_neg heq, hsymbol, Option.bind_some, if_neg hroot, hnewSymbol, Option.bind_some, if_neg hroot']

/-! ### Following -/

variable {rep : Ref → Ref} {ref root link : Ref}

theorem findRoot_spec (h : Linked map rep) (hlink : map.InRange link) :
    Settles (fun fuel => map.findRoot fuel link) (rep link) := by
  have hway := h.root link
  generalize rep link = r at hway
  induction hway with
  | @here link hnone =>
    obtain ⟨symbol, hsymbol⟩ := hlink.getConst
    rw [linkOf_eq hlink hsymbol] at hnone
    refine .of_succ (.of_forall fun fuel => ?_)
    rw [findRoot, lookup_eq_getConst hlink, hsymbol, Option.bind_some]
    split at hnone
    · cases hnone
    · rename_i hinvalid
      rw [if_neg hinvalid]
  | @up link next r hnext _ ih =>
    obtain ⟨symbol, hsymbol⟩ := hlink.getConst
    have hrange := h.inRange _ _ hnext
    rw [linkOf_eq hlink hsymbol] at hnext
    split at hnext
    · rename_i hvalid
      cases hnext
      refine .of_succ ?_
      have hstep : (fun fuel => map.findRoot (fuel + 1) link) = fun fuel => map.findRoot fuel symbol.link := by
        funext fuel
        rw [findRoot, lookup_eq_getConst hlink, hsymbol, Option.bind_some, if_pos hvalid]
      rw [hstep]
      exact ih hrange
    · cases hnext

/-- A symbol that has a link has one as long as its representative stays. -/
theorem Linked.link_ne_none (h : Linked map rep) (h' : Linked map' rep) (ha : map.linkOf a ≠ none) :
    map'.linkOf a ≠ none := by
  intro hnone
  have hroot := (h'.root a).eq_of_none hnone
  have hlink := (h.root a).link_eq_none
  rw [hroot] at hlink
  exact ha hlink

/-- A symbol that has a link may be linked to its representative. -/
theorem Linked.redirect_root (h : Linked map rep) (ha : map.linkOf a ≠ none) : Linked (map.setLink a (rep a)) rep := by
  obtain ⟨b, hb⟩ := Option.ne_none_iff_exists'.mp ha
  have hroot := (h.root a).link_eq_none
  refine h.redirect ha (h.inRange_rep (.of_linkOf hb)) ?_ fun habove => ?_
  · exact (h.root (rep a)).eq_of_none hroot
  · have heq := eq_of_above hroot habove
    rw [← heq] at hroot
    exact ha hroot

/-- The way was `way` before; what is above `link` is as it was. -/
theorem compress_spec {way : Ref → Option Ref} (hway : Root way link root) (h : Linked map rep) (hlink : map.InRange link)
    (hrep : rep link = root) (hsame : ∀ c, Above way link c → map.linkOf c = way c) :
    ∃ map', Settles (fun fuel => map.compress fuel root link) map' ∧ Linked map' rep ∧ Same map map' := by
  induction hway generalizing map with
  | @here link hnone =>
    obtain ⟨symbol, hsymbol⟩ := hlink.getConst
    have hinvalid : symbol.link.isValid = false := by
      rw [← hsame link .refl, linkOf_eq hlink hsymbol] at hnone
      split at hnone
      · cases hnone
      · rename_i hinvalid
        exact Bool.eq_false_of_not_eq_true hinvalid
    refine ⟨map, .of_succ (.of_forall fun fuel => ?_), h, .refl map⟩
    rw [compress, lookup_eq_getConst hlink, hsymbol, Option.bind_some, if_pos (.inr hinvalid)]
  | @up link next root hnext hway ih =>
    obtain ⟨symbol, hsymbol⟩ := hlink.getConst
    have hcurrent : map.linkOf link = some next := (hsame link .refl).trans hnext
    have hvalid : symbol.link.isValid = true ∧ symbol.link = next := by
      rw [linkOf_eq hlink hsymbol] at hcurrent
      split at hcurrent
      · rename_i hvalid
        exact ⟨hvalid, Option.some.inj hcurrent⟩
      · cases hcurrent
    by_cases hend : next = root
    · refine ⟨map, .of_succ (.of_forall fun fuel => ?_), h, .refl map⟩
      rw [compress, lookup_eq_getConst hlink, hsymbol, Option.bind_some, if_pos (.inl (hvalid.2.trans hend))]
    · have hne : map.linkOf link ≠ none := by
        rw [hcurrent]
        exact Option.some_ne_none _
      have hredirected : Linked (map.setLink link root) rep := hrep ▸ h.redirect_root hne
      have hset : Same map (map.setLink link root) := same_setLink hlink.1 root
      have hroot : map.InRange root := hrep ▸ h.inRange_rep hlink
      obtain ⟨map', hsettles, hlinked, hsame'⟩ := ih hredirected (hset.inRange.mpr (h.inRange _ _ hcurrent))
        ((h.rep_eq_of_link hcurrent).trans hrep) fun c hc => by
          rw [linkOf_setLink hlink (isValid_of_inRange hroot), Function.update_of_ne]
          · exact hsame c (.head hnext hc)
          · rintro rfl
            exact (Root.up hnext hway).not_above hnext hc
      refine ⟨map', .of_succ ?_, hlinked, hset.trans hsame'⟩
      have hstep : (fun fuel => map.compress (fuel + 1) root link) =
          fun fuel => (map.setLink link root).compress fuel root next := by
        funext fuel
        rw [compress, lookup_eq_getConst hlink, hsymbol, Option.bind_some, if_neg, hvalid.2]
        rw [hvalid.1, hvalid.2]
        simp [hend]
      rw [hstep]
      exact hsettles

/-- `follow` finds the representative and leaves the trees. -/
theorem follow_spec (h : Linked map rep) (href : map.InRange ref) :
    ∃ map', Settles (fun fuel => map.follow fuel ref) (rep ref, map') ∧ Linked map' rep ∧ Same map map' := by
  obtain ⟨symbol, hsymbol⟩ := href.getConst
  by_cases hvalid : symbol.link.isValid = true
  · have hlink := linkOf_of_valid href hsymbol hvalid
    have hrange := h.inRange _ _ hlink
    have hrep := h.rep_eq_of_link hlink
    have hroot := findRoot_spec h hrange
    rw [hrep] at hroot
    have hfollow : (fun fuel => map.follow fuel ref) = fun fuel => (map.findRoot fuel symbol.link).bind fun root =>
        if symbol.link = root then some (root, map)
        else (compress fuel (map.setLink ref root) root symbol.link).map (root, ·) := by
      funext fuel
      unfold follow
      rw [hsymbol]
      exact if_pos hvalid
    rw [hfollow]
    by_cases hnear : symbol.link = rep ref
    · exact ⟨map, hroot.bind (.of_forall fun fuel => if_pos hnear), h, .refl map⟩
    · have hne : map.linkOf ref ≠ none := by
        rw [hlink]
        exact Option.some_ne_none _
      have hset : Same map (map.setLink ref (rep ref)) := same_setLink href.1 (rep ref)
      obtain ⟨map', hsettles, hlinked, hsame⟩ := compress_spec (hrep ▸ h.root symbol.link) (h.redirect_root hne)
        (hset.inRange.mpr hrange) hrep fun c hc => by
          rw [linkOf_setLink href (isValid_of_inRange (h.inRange_rep href)), Function.update_of_ne]
          rintro rfl
          exact (h.root c).not_above hlink hc
      refine ⟨map', hroot.bind ?_, hlinked, hset.trans hsame⟩
      simp only [if_neg hnear]
      exact hsettles.map _
  · have hnone : map.linkOf ref = none := by
      rw [linkOf_eq href hsymbol, if_neg hvalid]
    refine ⟨map, .of_forall fun fuel => ?_, h, .refl map⟩
    rw [(h.root ref).eq_of_none hnone]
    unfold follow
    rw [hsymbol]
    exact if_neg hvalid

theorem followLink_spec (h : Linked map rep) (href : map.InRange ref) :
    ∃ map', Settles (fun fuel => map.followLink fuel ref) map' ∧ Linked map' rep ∧ Same map map' := by
  obtain ⟨symbol, hsymbol⟩ := href.getConst
  by_cases hvalid : symbol.hasLink = true
  · have hlink := linkOf_of_valid href hsymbol hvalid
    obtain ⟨map', hsettles, hlinked, hsame⟩ := follow_spec h (h.inRange _ _ hlink)
    rw [h.rep_eq_of_link hlink] at hsettles
    have hne : map.linkOf ref ≠ none := by
      rw [hlink]
      exact Option.some_ne_none _
    refine ⟨map'.setLink ref (rep ref), ?_, hlinked.redirect_root (h.link_ne_none hlinked hne),
      hsame.trans (same_setLink href.1 _)⟩
    have hstep : (fun fuel => map.followLink fuel ref) =
        fun fuel => (map.follow fuel symbol.link).map fun result => result.2.setLink ref result.1 := by
      funext fuel
      rw [followLink, lookup_eq_getConst href, hsymbol, Option.bind_some, if_pos hvalid]
    rw [hstep]
    exact hsettles.map _
  · refine ⟨map, .of_forall fun fuel => ?_, h, .refl map⟩
    rw [followLink, lookup_eq_getConst href, hsymbol, Option.bind_some, if_neg hvalid]

end Map
end Funbun.Ast
