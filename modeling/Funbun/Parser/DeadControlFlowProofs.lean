import Funbun.Parser.DeadControlFlow
import Mathlib.Data.List.Forall2

/-! Trimming keeps hoisted names. A loop head that is a pattern may come apart. -/
namespace Funbun.Parser.DeadControlFlow
variable {E : Type}

/-! ### What a statement declares -/

mutual

/-- The names that a binding binds. -/
def Binding.names : Binding E → List Nat
  | .bIdentifier ref => [ref]
  | .bArray items _ => itemNames items
  | .bObject properties => propertyNames properties
  | .bMissing => []

def itemNames : List (ArrayBinding E) → List Nat
  | [] => []
  | .mk binding _ :: rest => binding.names ++ itemNames rest

def propertyNames : List (Property E) → List Nat
  | [] => []
  | .mk _ value _ :: rest => value.names ++ propertyNames rest

end

/-- The names that declarations bind -/
def declNames (decls : List (Decl E)) : List Nat := decls.flatMap fun decl => decl.binding.names

mutual

/-- The names that a statement declares for the scope around it by `var` and `function`. -/
def hoisted : Stmt E → List Nat
  | .sLocal .kVar decls => declNames decls
  | .sFunction name => [name]
  | .sBlock stmts => hoistedAll stmts
  | .sDoWhile body _ | .sWhile _ body | .sWith _ body => hoisted body
  | .sForIn init _ body | .sForOf _ init _ body => hoisted init ++ hoisted body
  | .sFor init _ _ body => hoistedOptional init ++ hoisted body
  | .sIf _ yes no => hoisted yes ++ hoistedOptional no
  | .sLabel _ stmt => hoisted stmt
  | .sSwitch _ cases => hoistedCases cases
  | .sTry body catch_ finally_ => hoistedAll body ++ (hoistedCatch catch_ ++ hoistedFinally finally_)
  | _ => []

def hoistedAll : List (Stmt E) → List Nat
  | [] => []
  | child :: rest => hoisted child ++ hoistedAll rest

def hoistedOptional : Option (Stmt E) → List Nat
  | none => []
  | some stmt => hoisted stmt

def hoistedCases : List (Option E × List (Stmt E)) → List Nat
  | [] => []
  | (_, body) :: rest => hoistedAll body ++ hoistedCases rest

def hoistedCatch : Option (Option (Binding E) × List (Stmt E)) → List Nat
  | none => []
  | some (_, body) => hoistedAll body

def hoistedFinally : Option (List (Stmt E)) → List Nat
  | none => []
  | some stmts => hoistedAll stmts

end

mutual

/-- The lists of declarations of a statement, in the order of the source. -/
def declLists : Stmt E → List (List (Decl E))
  | .sLocal _ decls => [decls]
  | .sBlock stmts => declListsAll stmts
  | .sDoWhile body _ | .sWhile _ body | .sWith _ body => declLists body
  | .sForIn init _ body | .sForOf _ init _ body => declLists init ++ declLists body
  | .sFor init _ _ body => declListsOptional init ++ declLists body
  | .sIf _ yes no => declLists yes ++ declListsOptional no
  | .sLabel _ stmt => declLists stmt
  | .sSwitch _ cases => declListsCases cases
  | .sTry body catch_ finally_ => declListsAll body ++ (declListsCatch catch_ ++ declListsFinally finally_)
  | _ => []

def declListsAll : List (Stmt E) → List (List (Decl E))
  | [] => []
  | child :: rest => declLists child ++ declListsAll rest

def declListsOptional : Option (Stmt E) → List (List (Decl E))
  | none => []
  | some stmt => declLists stmt

def declListsCases : List (Option E × List (Stmt E)) → List (List (Decl E))
  | [] => []
  | (_, body) :: rest => declListsAll body ++ declListsCases rest

def declListsCatch : Option (Option (Binding E) × List (Stmt E)) → List (List (Decl E))
  | none => []
  | some (_, body) => declListsAll body

def declListsFinally : Option (List (Stmt E)) → List (List (Decl E))
  | none => []
  | some stmts => declListsAll stmts

end

/-- A list of declarations is as it was, or has no initialiser. -/
def Bare (decls decls' : List (Decl E)) : Prop := decls' = decls ∨ ∀ decl ∈ decls', decl.value = none

/-- The head of a loop over keys or values declares several names. -/
def declaresSeveral : Stmt E → Bool
  | .sLocal _ decls => 1 < (declNames decls).length
  | _ => false

mutual

/-- Whether there is a part that has to stay, and whether the first one is the head of a loop over keys or values that
declares several names. -/
def firstKept : Stmt E → Option Bool
  | .sEmpty | .sExpr _ | .sThrow _ | .sReturn _ | .sBreak _ | .sContinue _ | .sClass _ | .sDebugger => none
  | .sLocal kind decls => if kind = .kVar ∧ declNames decls ≠ [] then some false else none
  | .sBlock stmts => firstKeptAll stmts
  | .sTry body catch_ finally_ => (firstKeptAll body).or ((firstKeptCatch catch_).or (firstKeptFinally finally_))
  | .sIf _ yes no => (firstKept yes).or (firstKeptOptional no)
  | .sWhile _ body | .sDoWhile body _ => firstKept body
  | .sFor init _ _ body => (firstKeptOptional init).or (firstKept body)
  | .sForIn init _ body | .sForOf _ init _ body =>
    ((firstKept init).map fun _ => declaresSeveral init).or (firstKept body)
  | .sLabel _ stmt => firstKept stmt
  | _ => some false

def firstKeptAll : List (Stmt E) → Option Bool
  | [] => none
  | child :: rest => (firstKept child).or (firstKeptAll rest)

def firstKeptOptional : Option (Stmt E) → Option Bool
  | none => none
  | some stmt => firstKept stmt

def firstKeptCatch : Option (Option (Binding E) × List (Stmt E)) → Option Bool
  | none => none
  | some (_, body) => firstKeptAll body

def firstKeptFinally : Option (List (Stmt E)) → Option Bool
  | none => none
  | some stmts => firstKeptAll stmts

end

/-! ### Patterns -/

mutual

/-- The declarations for a binding are those of its names. -/
theorem findIdentifiers_eq : ∀ binding : Binding E,
    findIdentifiers binding = binding.names.map fun ref => ⟨.bIdentifier ref, none⟩
  | .bIdentifier _ => rfl
  | .bArray items _ => findItems_eq items
  | .bObject properties => findProperties_eq properties
  | .bMissing => rfl

theorem findItems_eq : ∀ items : List (ArrayBinding E),
    findItems items = (itemNames items).map fun ref => ⟨.bIdentifier ref, none⟩
  | [] => rfl
  | .mk binding _ :: rest => by
    rw [findItems, itemNames, List.map_append, findIdentifiers_eq binding, findItems_eq rest]

theorem findProperties_eq : ∀ properties : List (Property E),
    findProperties properties = (propertyNames properties).map fun ref => ⟨.bIdentifier ref, none⟩
  | [] => rfl
  | .mk _ value _ :: rest => by
    rw [findProperties, propertyNames, List.map_append, findIdentifiers_eq value, findProperties_eq rest]

end

theorem flatMap_findIdentifiers (decls : List (Decl E)) :
    (decls.flatMap fun decl => findIdentifiers decl.binding) =
      (declNames decls).map fun ref => ⟨.bIdentifier ref, none⟩ := by
  simp only [declNames, List.map_flatMap, findIdentifiers_eq]

/-- Bare declarations of names bind these names. -/
theorem declNames_identifiers (names : List Nat) :
    declNames (names.map fun ref => (⟨.bIdentifier ref, none⟩ : Decl E)) = names := by
  induction names with
  | nil => rfl
  | cons name rest ih =>
    rw [List.map_cons, declNames, List.flatMap_cons, ← declNames, ih]
    rfl

/-- What is left of a list of `var` declarations. -/
theorem shouldKeepStmt_sLocal (kind : Kind) (decls : List (Decl E)) :
    shouldKeepStmt (.sLocal kind decls) = if kind = .kVar ∧ declNames decls ≠ [] then
        (true, .sLocal kind ((declNames decls).map fun ref => ⟨.bIdentifier ref, none⟩))
      else (false, .sLocal kind decls) := by
  unfold shouldKeepStmt
  by_cases hkind : kind = .kVar
  · rw [if_neg (not_not_intro hkind)]
    split
    · rename_i ref value
      rw [if_pos ⟨hkind, List.cons_ne_nil ref []⟩]
      rfl
    · rw [flatMap_findIdentifiers]
      cases hnames : declNames decls with
      | nil =>
        rw [if_neg fun h => h.2 rfl]
        rfl
      | cons name rest =>
        rw [if_pos ⟨hkind, List.cons_ne_nil name rest⟩]
        rfl
  · rw [if_pos hkind, if_neg fun h => hkind h.1]

/-! ### Names and lists -/

/-- What a walk leaves of something: its names, its lists bare where they were changed, and nothing to drop with a name. -/
structure Walked (names names' : List Nat) (lists lists' : List (List (Decl E))) (first : Option Bool) (keep : Bool) :
    Prop where
  names_eq : names' = names
  bare : List.Forall₂ Bare lists lists'
  keep_eq : keep = first.isSome
  dropped : keep = false → names = []

theorem forall₂_bare_refl (lists : List (List (Decl E))) : List.Forall₂ Bare lists lists :=
  List.forall₂_same.mpr fun _ _ => .inl rfl

namespace Walked
variable {names names' names₂ names₂' : List Nat} {lists lists' lists₂ lists₂' : List (List (Decl E))}
  {first first₂ : Option Bool} {keep : Bool}

theorem nothing : Walked [] [] ([] : List (List (Decl E))) [] none false :=
  ⟨rfl, .nil, rfl, fun _ => rfl⟩

theorem dropped_lists (lists : List (List (Decl E))) : Walked [] [] lists lists none false :=
  ⟨rfl, forall₂_bare_refl lists, rfl, fun _ => rfl⟩

theorem untouched (names : List Nat) (lists : List (List (Decl E))) : Walked names names lists lists (some false) true :=
  ⟨rfl, forall₂_bare_refl lists, rfl, fun h => nomatch h⟩

/-- The walk stops. -/
theorem stop (h : Walked names names' lists lists' first true) (names₂ : List Nat) (lists₂ : List (List (Decl E)))
    (first₂ : Option Bool) : Walked (names ++ names₂) (names' ++ names₂) (lists ++ lists₂) (lists' ++ lists₂)
      (first.or first₂) true where
  names_eq := by rw [h.names_eq]
  bare := List.rel_append h.bare (forall₂_bare_refl lists₂)
  keep_eq := by rw [Option.isSome_or, ← h.keep_eq, Bool.true_or]
  dropped h := nomatch h

/-- The walk goes on. -/
theorem next (h : Walked names names' lists lists' first false) (h₂ : Walked names₂ names₂' lists₂ lists₂' first₂ keep) :
    Walked (names ++ names₂) (names' ++ names₂') (lists ++ lists₂) (lists' ++ lists₂') (first.or first₂) keep where
  names_eq := by rw [h.names_eq, h₂.names_eq]
  bare := List.rel_append h.bare h₂.bare
  keep_eq := by rw [Option.isSome_or, ← h.keep_eq, ← h₂.keep_eq, Bool.false_or]
  dropped hkeep := by rw [h.dropped rfl, h₂.dropped hkeep, List.append_nil]

theorem map (h : Walked names names' lists lists' first keep) (f : Bool → Bool) :
    Walked names names' lists lists' (first.map f) keep where
  names_eq := h.names_eq
  bare := h.bare
  keep_eq := by rw [Option.isSome_map, h.keep_eq]
  dropped := h.dropped

end Walked

/-- Of declarations, a `var` keeps its names. -/
theorem walked_sLocal (kind : Kind) (decls : List (Decl E)) :
    Walked (hoisted (.sLocal kind decls)) (hoisted (shouldKeepStmt (.sLocal kind decls)).2)
      (declLists (.sLocal kind decls)) (declLists (shouldKeepStmt (.sLocal kind decls)).2)
      (firstKept (.sLocal kind decls)) (shouldKeepStmt (.sLocal kind decls)).1 := by
  rw [shouldKeepStmt_sLocal, firstKept]
  by_cases hkeep : kind = .kVar ∧ declNames decls ≠ []
  · obtain ⟨rfl, hnames⟩ := hkeep
    rw [if_pos ⟨rfl, hnames⟩, if_pos ⟨rfl, hnames⟩]
    refine ⟨declNames_identifiers _, .cons (.inr fun decl hdecl => ?_) .nil, rfl, fun h => nomatch h⟩
    obtain ⟨ref, -, rfl⟩ := List.mem_map.mp hdecl
    rfl
  · rw [if_neg hkeep, if_neg hkeep]
    have hnone : hoisted (.sLocal kind decls) = [] := by
      cases kind with
      | kVar => exact not_not.mp fun hnames => hkeep ⟨rfl, hnames⟩
      | _ => rfl
    rw [hnone]
    exact .dropped_lists _

mutual

/-- What a statement hoists is kept, each declaration as it was or bare. -/
theorem walked : ∀ s : Stmt E, Walked (hoisted s) (hoisted (shouldKeepStmt s).2) (declLists s)
    (declLists (shouldKeepStmt s).2) (firstKept s) (shouldKeepStmt s).1
  | .sEmpty | .sExpr _ | .sThrow _ | .sReturn _ | .sBreak _ | .sContinue _ | .sClass _ | .sDebugger => .nothing
  | .sLocal kind decls => walked_sLocal kind decls
  | .sBlock stmts => walkedAll stmts
  | .sWhile _ body | .sDoWhile body _ => walked body
  | .sLabel _ stmt => walked stmt
  | .sTry body catch_ finally_ => by
    have hbody := walkedAll body
    have hcatch := walkedCatch catch_
    have hfinally := walkedFinally finally_
    rw [shouldKeepStmt]
    rcases hb : shouldKeepStmts body with ⟨keep, body'⟩
    rw [hb] at hbody
    cases keep with
    | true => exact hbody.stop _ _ _
    | false =>
      rcases hc : shouldKeepCatch catch_ with ⟨keep, catch'⟩
      rw [hc] at hcatch
      cases keep with
      | true =>
        have hboth := hbody.next (hcatch.stop (hoistedFinally finally_) (declListsFinally finally_)
          (firstKeptFinally finally_))
        simp only [if_neg Bool.false_ne_true]
        exact hboth
      | false =>
        have hall := hbody.next (hcatch.next hfinally)
        simp only [if_neg Bool.false_ne_true]
        exact hall
  | .sIf _ yes no => by
    have hyes := walked yes
    have hno := walkedOptional no
    rw [shouldKeepStmt]
    rcases hy : shouldKeepStmt yes with ⟨keep, yes'⟩
    rw [hy] at hyes
    cases keep with
    | true => exact hyes.stop _ _ _
    | false => exact hyes.next hno
  | .sFor init _ _ body => by
    have hinit := walkedOptional init
    have hbody := walked body
    rw [shouldKeepStmt]
    rcases hi : shouldKeepOptional init with ⟨keep, init'⟩
    rw [hi] at hinit
    cases keep with
    | true => exact hinit.stop _ _ _
    | false => exact hinit.next hbody
  | .sForIn init _ body | .sForOf _ init _ body => by
    have hinit := (walked init).map fun _ => declaresSeveral init
    have hbody := walked body
    rw [shouldKeepStmt]
    rcases hi : shouldKeepStmt init with ⟨keep, init'⟩
    rw [hi] at hinit
    cases keep with
    | true => exact hinit.stop _ _ _
    | false => exact hinit.next hbody
  | .sComment | .sDirective | .sEnum _ | .sExportClause | .sExportDefault | .sExportEquals | .sExportFrom | .sExportStar
  | .sFunction _ | .sImport | .sNamespace _ | .sSwitch _ _ | .sWith _ _ | .sTypeScript | .sLazyExport => .untouched _ _

theorem walkedAll : ∀ stmts : List (Stmt E), Walked (hoistedAll stmts) (hoistedAll (shouldKeepStmts stmts).2)
    (declListsAll stmts) (declListsAll (shouldKeepStmts stmts).2) (firstKeptAll stmts) (shouldKeepStmts stmts).1
  | [] => .nothing
  | child :: rest => by
    have hchild := walked child
    have hrest := walkedAll rest
    rw [shouldKeepStmts]
    rcases hc : shouldKeepStmt child with ⟨keep, child'⟩
    rw [hc] at hchild
    cases keep with
    | true => exact hchild.stop _ _ _
    | false => exact hchild.next hrest

theorem walkedOptional : ∀ stmt : Option (Stmt E), Walked (hoistedOptional stmt)
    (hoistedOptional (shouldKeepOptional stmt).2) (declListsOptional stmt) (declListsOptional (shouldKeepOptional stmt).2)
    (firstKeptOptional stmt) (shouldKeepOptional stmt).1
  | none => .nothing
  | some stmt => walked stmt

theorem walkedCatch : ∀ catch_ : Option (Option (Binding E) × List (Stmt E)), Walked (hoistedCatch catch_)
    (hoistedCatch (shouldKeepCatch catch_).2) (declListsCatch catch_) (declListsCatch (shouldKeepCatch catch_).2)
    (firstKeptCatch catch_) (shouldKeepCatch catch_).1
  | none => .nothing
  | some (_, body) => walkedAll body

theorem walkedFinally : ∀ finally_ : Option (List (Stmt E)), Walked (hoistedFinally finally_)
    (hoistedFinally (shouldKeepFinally finally_).2) (declListsFinally finally_)
    (declListsFinally (shouldKeepFinally finally_).2) (firstKeptFinally finally_) (shouldKeepFinally finally_).1
  | none => .nothing
  | some stmts => walkedAll stmts

end

/-! ### Syntax -/

/-- A declaration of a statement of its own, or of the head of a loop with three parts. -/
def Decl.Valid (kind : Kind) (decl : Decl E) : Prop :=
  match decl.binding with
  | .bIdentifier _ => kind = .kVar ∨ kind = .kLet ∨ decl.value.isSome
  | .bArray _ _ | .bObject _ => kind ≠ .kUsing ∧ kind ≠ .kAwaitUsing ∧ decl.value.isSome
  | .bMissing => False

/-- There is a declaration, and each is valid. -/
def DeclsValid (kind : Kind) (decls : List (Decl E)) : Prop := decls ≠ [] ∧ ∀ decl ∈ decls, decl.Valid kind

/-- The head of a loop over keys or values: one declaration, without initialiser. Only a `var` of one name may have one,
in a loop over keys. -/
def HeadValid (keys : Bool) : Stmt E → Prop
  | .sExpr _ => True
  | .sLocal kind [⟨binding, value⟩] =>
    match binding with
    | .bIdentifier _ => value = none ∨ keys = true ∧ kind = .kVar
    | .bArray _ _ | .bObject _ => value = none
    | .bMissing => False
  | _ => False

/-- The head of a loop with three parts, which may be empty -/
def ForInitValid : Option (Stmt E) → Prop
  | none | some (.sExpr _) => True
  | some (.sLocal kind decls) => DeclsValid kind decls
  | some _ => False

/-- What may stand where the syntax has one statement: no declaration but of a `var` or a function. -/
def Embeddable : Stmt E → Prop
  | .sLocal kind _ => kind = .kVar
  | .sClass _ | .sEnum _ | .sNamespace _ | .sImport | .sExportClause | .sExportDefault | .sExportEquals | .sExportFrom
  | .sExportStar | .sTypeScript | .sLazyExport | .sDirective => False
  | _ => True

mutual

/-- The syntax of a statement, as far as declarations and the places of statements go. -/
def Stmt.Valid : Stmt E → Prop
  | .sLocal kind decls => DeclsValid kind decls
  | .sBlock stmts => ValidAll stmts
  | .sDoWhile body _ | .sWhile _ body | .sWith _ body => Embeddable body ∧ body.Valid
  | .sLabel _ stmt => Embeddable stmt ∧ stmt.Valid
  | .sForIn init _ body => HeadValid true init ∧ Embeddable body ∧ body.Valid
  | .sForOf _ init _ body => HeadValid false init ∧ Embeddable body ∧ body.Valid
  | .sFor init _ _ body => ForInitValid init ∧ Embeddable body ∧ body.Valid
  | .sIf _ yes no => (Embeddable yes ∧ yes.Valid) ∧ ValidElse no
  | .sSwitch _ cases => ValidCases cases
  | .sTry body catch_ finally_ =>
    ValidAll body ∧ ValidCatch catch_ ∧ ValidFinally finally_ ∧ (catch_.isSome ∨ finally_.isSome)
  | _ => True

def ValidAll : List (Stmt E) → Prop
  | [] => True
  | child :: rest => child.Valid ∧ ValidAll rest

/-- What stands behind `else`, if anything does -/
def ValidElse : Option (Stmt E) → Prop
  | none => True
  | some stmt => Embeddable stmt ∧ stmt.Valid

def ValidCases : List (Option E × List (Stmt E)) → Prop
  | [] => True
  | (_, body) :: rest => ValidAll body ∧ ValidCases rest

def ValidCatch : Option (Option (Binding E) × List (Stmt E)) → Prop
  | none => True
  | some (_, body) => ValidAll body

def ValidFinally : Option (List (Stmt E)) → Prop
  | none => True
  | some stmts => ValidAll stmts

end

/-- Something that is valid stays so, unless the first part of it that is kept comes apart. -/
def Stays (valid valid' : Prop) (first : Option Bool) : Prop := valid → (valid' ↔ first ≠ some true)

namespace Stays
variable {valid valid' valid₂ valid₂' : Prop} {first first₂ : Option Bool}

theorem unchanged (valid : Prop) (h : first ≠ some true) : Stays valid valid first := fun hvalid => iff_of_true hvalid h

/-- The walk stops at the first part, which is kept. -/
theorem stop (h : Stays valid valid' first) (hfirst : first.isSome = true) (valid₂ : Prop) (first₂ : Option Bool) :
    Stays (valid ∧ valid₂) (valid' ∧ valid₂) (first.or first₂) := by
  rintro ⟨hvalid, hvalid₂⟩
  obtain ⟨b, rfl⟩ := Option.isSome_iff_exists.mp hfirst
  rw [Option.some_or, and_iff_left hvalid₂]
  exact h hvalid

/-- Nothing of the first part is kept. -/
theorem next (h : Stays valid valid' first) (hfirst : first.isSome = false) (h₂ : Stays valid₂ valid₂' first₂) :
    Stays (valid ∧ valid₂) (valid' ∧ valid₂') (first.or first₂) := by
  rintro ⟨hvalid, hvalid₂⟩
  obtain rfl : first = none := Option.isSome_eq_false_iff.mp hfirst |> Option.isNone_iff_eq_none.mp
  rw [Option.none_or, and_iff_right ((h hvalid).mpr (fun hnone => nomatch hnone))]
  exact h₂ hvalid₂

theorem beside (h : Stays valid valid' first) (p : Prop) : Stays (valid ∧ p) (valid' ∧ p) first := by
  rintro ⟨hvalid, hp⟩
  rw [and_iff_left hp]
  exact h hvalid

theorem embed {embeddable : Prop} (h : Stays valid valid' first) :
    Stays (embeddable ∧ valid) (embeddable ∧ valid') first := by
  rintro ⟨hembeddable, hvalid⟩
  rw [and_iff_right hembeddable]
  exact h hvalid

end Stays

/-- A walk leaves a statement of the same kind. -/
theorem embeddable_shouldKeepStmt (s : Stmt E) : Embeddable (shouldKeepStmt s).2 = Embeddable s := by
  cases s with
  | sLocal kind decls =>
    rw [shouldKeepStmt_sLocal]
    split <;> rfl
  | sTry _ _ _ | sIf _ _ _ | sFor _ _ _ _ | sForIn _ _ _ | sForOf _ _ _ _ =>
    simp only [shouldKeepStmt]
    split
    · rfl
    · try split
      all_goals rfl
  | _ => rfl

/-- A `var` needs no initialiser for a name. -/
theorem identifiers_valid (names : List Nat) :
    ∀ decl ∈ names.map fun ref => (⟨.bIdentifier ref, none⟩ : Decl E), decl.Valid .kVar := by
  intro decl hdecl
  obtain ⟨ref, -, rfl⟩ := List.mem_map.mp hdecl
  exact .inl rfl

/-- What becomes of declarations is valid: a `var` of names. -/
theorem stays_decls (kind : Kind) (decls : List (Decl E)) :
    Stays (DeclsValid kind decls) (Stmt.Valid (shouldKeepStmt (.sLocal kind decls)).2) (firstKept (.sLocal kind decls)) := by
  rw [shouldKeepStmt_sLocal, firstKept]
  split
  · rename_i hkeep
    obtain ⟨rfl, hnames⟩ := hkeep
    have hvalid : DeclsValid .kVar ((declNames decls).map fun ref => (⟨.bIdentifier ref, none⟩ : Decl E)) :=
      ⟨fun hnil => hnames (List.map_eq_nil_iff.mp hnil), identifiers_valid _⟩
    exact fun _ => iff_of_true hvalid fun h => nomatch h
  · exact .unchanged _ fun h => nomatch h

/-- A head stays valid if it declares one name. -/
theorem stays_head (keys : Bool) (init : Stmt E) :
    Stays (HeadValid keys init) (HeadValid keys (shouldKeepStmt init).2)
      ((firstKept init).map fun _ => declaresSeveral init) := by
  cases init with
  | sExpr value => exact .unchanged _ fun h => nomatch h
  | sLocal kind decls =>
    rw [shouldKeepStmt_sLocal, firstKept]
    split
    · rename_i hkeep
      obtain ⟨rfl, hnames⟩ := hkeep
      intro _
      simp only [declaresSeveral, Option.map_some]
      generalize declNames decls = names at hnames
      match names, hnames with
      | [name], _ => exact iff_of_true (.inl rfl) fun h => nomatch h
      | _ :: _ :: rest, _ =>
        refine iff_of_false id fun h => h (congrArg some (decide_eq_true ?_))
        exact Nat.le_add_left 2 rest.length
    · exact .unchanged _ fun h => nomatch h
  | _ => exact fun hvalid => hvalid.elim

/-- The head of a loop with three parts stays valid. -/
theorem stays_init (init : Option (Stmt E)) :
    Stays (ForInitValid init) (ForInitValid (shouldKeepOptional init).2) (firstKeptOptional init) := by
  cases init with
  | none => exact .unchanged _ fun h => nomatch h
  | some stmt =>
    cases stmt with
    | sExpr value => exact .unchanged _ fun h => nomatch h
    | sLocal kind decls =>
      have hdecls := stays_decls kind decls
      have hsame : ForInitValid (shouldKeepOptional (some (.sLocal kind decls))).2 =
          Stmt.Valid (shouldKeepStmt (.sLocal kind decls)).2 := by
        simp only [shouldKeepOptional, shouldKeepStmt_sLocal]
        split <;> rfl
      rw [hsame]
      exact hdecls
    | _ => exact fun hvalid => hvalid.elim

/-- A statement in a place for one statement. -/
theorem stays_body {body : Stmt E} (h : Stays body.Valid (shouldKeepStmt body).2.Valid (firstKept body)) :
    Stays (Embeddable body ∧ body.Valid) (Embeddable (shouldKeepStmt body).2 ∧ (shouldKeepStmt body).2.Valid)
      (firstKept body) := by
  rw [embeddable_shouldKeepStmt]
  exact h.embed

mutual

/-- A valid statement stays so, unless the head of a loop comes apart. -/
theorem stays : ∀ s : Stmt E, Stays s.Valid (shouldKeepStmt s).2.Valid (firstKept s)
  | .sEmpty | .sExpr _ | .sThrow _ | .sReturn _ | .sBreak _ | .sContinue _ | .sClass _ | .sDebugger =>
    .unchanged _ fun h => nomatch h
  | .sLocal kind decls => stays_decls kind decls
  | .sBlock stmts => staysAll stmts
  | .sWhile _ body | .sDoWhile body _ => stays_body (stays body)
  | .sLabel _ stmt => stays_body (stays stmt)
  | .sTry body catch_ finally_ => by
    have hbody := staysAll body
    have hcatch := staysCatch catch_
    have hfinally := staysFinally finally_
    have hkeepBody := (walkedAll body).keep_eq
    have hkeepCatch := (walkedCatch catch_).keep_eq
    have hhandlerCatch : (shouldKeepCatch catch_).2.isSome = catch_.isSome := by cases catch_ <;> rfl
    have hhandlerFinally : (shouldKeepFinally finally_).2.isSome = finally_.isSome := by cases finally_ <;> rfl
    rw [shouldKeepStmt]
    rcases hb : shouldKeepStmts body with ⟨keep, body'⟩
    rw [hb] at hbody hkeepBody
    cases keep with
    | true => exact hbody.stop hkeepBody.symm _ _
    | false =>
      rcases hc : shouldKeepCatch catch_ with ⟨keep, catch'⟩
      rw [hc] at hcatch hkeepCatch hhandlerCatch
      cases keep with
      | true =>
        have hboth := hbody.next hkeepBody.symm (hcatch.stop hkeepCatch.symm
          (ValidFinally finally_ ∧ (catch_.isSome ∨ finally_.isSome)) (firstKeptFinally finally_))
        simp only [if_neg Bool.false_ne_true, if_true, Stmt.Valid, hhandlerCatch]
        exact hboth
      | false =>
        have hall := hbody.next hkeepBody.symm (hcatch.next hkeepCatch.symm
          (hfinally.beside (catch_.isSome ∨ finally_.isSome)))
        simp only [if_neg Bool.false_ne_true, Stmt.Valid, hhandlerCatch, hhandlerFinally]
        exact hall
  | .sIf _ yes no => by
    have hyes := stays_body (stays yes)
    have hno := staysElse no
    have hkeep := (walked yes).keep_eq
    rw [shouldKeepStmt]
    rcases hy : shouldKeepStmt yes with ⟨keep, yes'⟩
    rw [hy] at hyes hkeep
    cases keep with
    | true => exact hyes.stop hkeep.symm _ _
    | false => exact hyes.next hkeep.symm hno
  | .sFor init _ _ body => by
    have hinit := stays_init init
    have hbody := stays_body (stays body)
    have hkeep := (walkedOptional init).keep_eq
    rw [shouldKeepStmt]
    rcases hi : shouldKeepOptional init with ⟨keep, init'⟩
    rw [hi] at hinit hkeep
    cases keep with
    | true => exact hinit.stop hkeep.symm _ _
    | false => exact hinit.next hkeep.symm hbody
  | .sForIn init _ body => by
    have hinit := stays_head true init
    have hbody := stays_body (stays body)
    have hkeep := ((walked init).map fun _ => declaresSeveral init).keep_eq
    rw [shouldKeepStmt]
    rcases hi : shouldKeepStmt init with ⟨keep, init'⟩
    rw [hi] at hinit hkeep
    cases keep with
    | true => exact hinit.stop hkeep.symm _ _
    | false => exact hinit.next hkeep.symm hbody
  | .sForOf _ init _ body => by
    have hinit := stays_head false init
    have hbody := stays_body (stays body)
    have hkeep := ((walked init).map fun _ => declaresSeveral init).keep_eq
    rw [shouldKeepStmt]
    rcases hi : shouldKeepStmt init with ⟨keep, init'⟩
    rw [hi] at hinit hkeep
    cases keep with
    | true => exact hinit.stop hkeep.symm _ _
    | false => exact hinit.next hkeep.symm hbody
  | .sComment | .sDirective | .sEnum _ | .sExportClause | .sExportDefault | .sExportEquals | .sExportFrom | .sExportStar
  | .sFunction _ | .sImport | .sNamespace _ | .sSwitch _ _ | .sWith _ _ | .sTypeScript | .sLazyExport =>
    .unchanged _ fun h => nomatch h

theorem staysAll : ∀ stmts : List (Stmt E), Stays (ValidAll stmts) (ValidAll (shouldKeepStmts stmts).2) (firstKeptAll stmts)
  | [] => .unchanged _ fun h => nomatch h
  | child :: rest => by
    have hchild := stays child
    have hrest := staysAll rest
    have hkeep := (walked child).keep_eq
    rw [shouldKeepStmts]
    rcases hc : shouldKeepStmt child with ⟨keep, child'⟩
    rw [hc] at hchild hkeep
    cases keep with
    | true => exact hchild.stop hkeep.symm _ _
    | false => exact hchild.next hkeep.symm hrest

theorem staysElse : ∀ stmt : Option (Stmt E), Stays (ValidElse stmt) (ValidElse (shouldKeepOptional stmt).2)
    (firstKeptOptional stmt)
  | none => .unchanged _ fun h => nomatch h
  | some stmt => stays_body (stays stmt)

theorem staysCatch : ∀ catch_ : Option (Option (Binding E) × List (Stmt E)),
    Stays (ValidCatch catch_) (ValidCatch (shouldKeepCatch catch_).2) (firstKeptCatch catch_)
  | none => .unchanged _ fun h => nomatch h
  | some (_, body) => staysAll body

theorem staysFinally : ∀ finally_ : Option (List (Stmt E)),
    Stays (ValidFinally finally_) (ValidFinally (shouldKeepFinally finally_).2) (firstKeptFinally finally_)
  | none => .unchanged _ fun h => nomatch h
  | some stmts => staysAll stmts

end

/-! ### Trimming -/

/-- What should be true of a statement in dead code after it was looked at. -/
def Trims (s : Stmt E) : Prop :=
  ((shouldKeepStmt s).1 = false → hoisted s = []) ∧
    ((shouldKeepStmt s).1 = true → hoisted (shouldKeepStmt s).2 = hoisted s ∧ (shouldKeepStmt s).2.Valid ∧
      List.Forall₂ Bare (declLists s) (declLists (shouldKeepStmt s).2))

/-- Names are kept and initialisers go in every case. The syntax stays that of a statement unless a head comes apart. -/
theorem shouldKeepStmt_exact (s : Stmt E) (hvalid : s.Valid) : Trims s ↔ firstKept s ≠ some true := by
  have hwalked := walked s
  have hstays := stays s hvalid
  constructor
  · rintro ⟨-, hkept⟩ hfirst
    have hkeep : (shouldKeepStmt s).1 = true := by rw [hwalked.keep_eq, hfirst, Option.isSome_some]
    exact hstays.mp (hkept hkeep).2.1 hfirst
  · intro hfirst
    exact ⟨hwalked.dropped, fun _ => ⟨hwalked.names_eq, hstays.mpr hfirst, hwalked.bare⟩⟩

/-- `while (0) { f(); var [a, b] = c; }` -/
theorem shouldKeepStmt_exact_while :
    Trims (.sWhile 0 (.sBlock [.sExpr 1, .sLocal .kVar [⟨.bArray [.mk (.bIdentifier 0) none, .mk (.bIdentifier 1) none]
      false, some 2⟩]]) : Stmt Nat) := by
  refine (shouldKeepStmt_exact _ (show Stmt.Valid _ from ?_)).mpr (by decide)
  refine ⟨trivial, trivial, ⟨List.cons_ne_nil _ _, fun decl hdecl => ?_⟩, trivial⟩
  rw [List.mem_singleton.mp hdecl]
  exact ⟨by decide, by decide, rfl⟩

/-- `for (var [a, b] of c) ;` becomes `for (var a, b of c) ;`. -/
theorem shouldKeepStmt_splitsHead :
    ∃ s : Stmt Nat, s.Valid ∧ (shouldKeepStmt s).1 = true ∧ ¬ (shouldKeepStmt s).2.Valid ∧ ¬ Trims s := by
  refine ⟨.sForOf false (.sLocal .kVar [⟨.bArray [.mk (.bIdentifier 0) none, .mk (.bIdentifier 1) none] false, none⟩]) 0
    .sEmpty, ⟨rfl, trivial, trivial⟩, rfl, fun h => h.1, fun h => (h.2 rfl).2.1.1⟩

end Funbun.Parser.DeadControlFlow
