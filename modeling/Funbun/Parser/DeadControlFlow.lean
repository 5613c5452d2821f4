import Mathlib.Data.List.Basic

/-! Trimming statements that are never run.

Only what a statement declares for the scope around it has to stay. A statement is walked up to the first declaration of
that kind, and a `var` there keeps its names and nothing else. -/
namespace Funbun.Parser.DeadControlFlow

/-! ### Syntax

`E` are the expressions, which are not looked into. -/

mutual

/-- What a declaration binds -/
inductive Binding (E : Type) where
  | bIdentifier (ref : Nat)
  | bArray (items : List (ArrayBinding E)) (hasSpread : Bool)
  | bObject (properties : List (Property E))
  | bMissing

inductive ArrayBinding (E : Type) where
  | mk (binding : Binding E) (defaultValue : Option E)

inductive Property (E : Type) where
  | mk (key : E) (value : Binding E) (defaultValue : Option E)

end

/-- A binding with its initialiser, if it has one -/
structure Decl (E : Type) where
  binding : Binding E
  value : Option E

/-- How a list of declarations begins -/
inductive Kind where
  | kVar | kLet | kConst | kUsing | kAwaitUsing
  deriving DecidableEq

/-- A function has a scope of its own, so only its name is here. -/
inductive Stmt (E : Type) where
  | sBlock (stmts : List (Stmt E))
  | sBreak (label : Option Nat)
  | sClass (name : Nat)
  | sComment
  | sContinue (label : Option Nat)
  | sDirective
  | sDoWhile (body : Stmt E) (test : E)
  | sEnum (name : Nat)
  | sExportClause
  | sExportDefault
  | sExportEquals
  | sExportFrom
  | sExportStar
  | sExpr (value : E)
  | sForIn (init : Stmt E) (value : E) (body : Stmt E)
  | sForOf (isAwait : Bool) (init : Stmt E) (value : E) (body : Stmt E)
  | sFor (init : Option (Stmt E)) (test update : Option E) (body : Stmt E)
  | sFunction (name : Nat)
  | sIf (test : E) (yes : Stmt E) (no : Option (Stmt E))
  | sImport
  | sLabel (name : Nat) (stmt : Stmt E)
  | sLocal (kind : Kind) (decls : List (Decl E))
  | sNamespace (name : Nat)
  | sReturn (value : Option E)
  | sSwitch (test : E) (cases : List (Option E × List (Stmt E)))
  | sThrow (value : E)
  | sTry (body : List (Stmt E)) (catch_ : Option (Option (Binding E) × List (Stmt E))) (finally_ : Option (List (Stmt E)))
  | sWhile (test : E) (body : Stmt E)
  | sWith (value : E) (body : Stmt E)
  | sTypeScript
  | sEmpty
  | sDebugger
  | sLazyExport

variable {E : Type}

/-! ### The walk -/

mutual

/-- The names of a binding, each declared without a value. -/
def findIdentifiers : Binding E → List (Decl E)
  | .bIdentifier ref => [⟨.bIdentifier ref, none⟩]
  | .bArray items _ => findItems items
  | .bObject properties => findProperties properties
  | .bMissing => []

def findItems : List (ArrayBinding E) → List (Decl E)
  | [] => []
  | .mk binding _ :: rest => findIdentifiers binding ++ findItems rest

def findProperties : List (Property E) → List (Decl E)
  | [] => []
  | .mk _ value _ :: rest => findIdentifiers value ++ findProperties rest

end

mutual

/-- Whether the statement is kept, and what is left of it. -/
def shouldKeepStmt : Stmt E → Bool × Stmt E
  | .sEmpty => (false, .sEmpty)
  | .sExpr value => (false, .sExpr value)
  | .sThrow value => (false, .sThrow value)
  | .sReturn value => (false, .sReturn value)
  | .sBreak label => (false, .sBreak label)
  | .sContinue label => (false, .sContinue label)
  | .sClass name => (false, .sClass name)
  | .sDebugger => (false, .sDebugger)
  | .sLocal kind decls =>
    if kind ≠ .kVar then (false, .sLocal kind decls)
    else
      match decls with
      | [⟨.bIdentifier ref, _⟩] => (true, .sLocal kind [⟨.bIdentifier ref, none⟩])
      | _ =>
        match decls.flatMap fun decl => findIdentifiers decl.binding with
        | [] => (false, .sLocal kind decls)
        | found => (true, .sLocal kind found)
  | .sBlock stmts =>
    let (keep, stmts) := shouldKeepStmts stmts
    (keep, .sBlock stmts)
  | .sTry body catch_ finally_ =>
    let (keep, body) := shouldKeepStmts body
    if keep then (true, .sTry body catch_ finally_)
    else
      let (keep, catch_) := shouldKeepCatch catch_
      if keep then (true, .sTry body catch_ finally_)
      else
        let (keep, finally_) := shouldKeepFinally finally_
        (keep, .sTry body catch_ finally_)
  | .sIf test yes no =>
    let (keep, yes) := shouldKeepStmt yes
    if keep then (true, .sIf test yes no)
    else
      let (keep, no) := shouldKeepOptional no
      (keep, .sIf test yes no)
  | .sWhile test body =>
    let (keep, body) := shouldKeepStmt body
    (keep, .sWhile test body)
  | .sDoWhile body test =>
    let (keep, body) := shouldKeepStmt body
    (keep, .sDoWhile body test)
  | .sFor init test update body =>
    let (keep, init) := shouldKeepOptional init
    if keep then (true, .sFor init test update body)
    else
      let (keep, body) := shouldKeepStmt body
      (keep, .sFor init test update body)
  | .sForIn init value body =>
    let (keep, init) := shouldKeepStmt init
    if keep then (true, .sForIn init value body)
    else
      let (keep, body) := shouldKeepStmt body
      (keep, .sForIn init value body)
  | .sForOf isAwait init value body =>
    let (keep, init) := shouldKeepStmt init
    if keep then (true, .sForOf isAwait init value body)
    else
      let (keep, body) := shouldKeepStmt body
      (keep, .sForOf isAwait init value body)
  | .sLabel name stmt =>
    let (keep, stmt) := shouldKeepStmt stmt
    (keep, .sLabel name stmt)
  | stmt => (true, stmt)

/-- Statements up to the first that is kept. -/
def shouldKeepStmts : List (Stmt E) → Bool × List (Stmt E)
  | [] => (false, [])
  | child :: rest =>
    let (keep, child) := shouldKeepStmt child
    if keep then (true, child :: rest)
    else
      let (keep, rest) := shouldKeepStmts rest
      (keep, child :: rest)

def shouldKeepOptional : Option (Stmt E) → Bool × Option (Stmt E)
  | none => (false, none)
  | some stmt =>
    let (keep, stmt) := shouldKeepStmt stmt
    (keep, some stmt)

def shouldKeepCatch : Option (Option (Binding E) × List (Stmt E)) → Bool × Option (Option (Binding E) × List (Stmt E))
  | none => (false, none)
  | some (binding, body) =>
    let (keep, body) := shouldKeepStmts body
    (keep, some (binding, body))

def shouldKeepFinally : Option (List (Stmt E)) → Bool × Option (List (Stmt E))
  | none => (false, none)
  | some stmts =>
    let (keep, stmts) := shouldKeepStmts stmts
    (keep, some stmts)

end

end Funbun.Parser.DeadControlFlow
