import Funbun.Bundler.TreeShaking

/-! Top-level await: which files are asynchronous, and which `require` calls are not allowed.

A file is walked when it is first met. It is asynchronous if it awaits, or as soon as a file that one of its import
statements names is: `parent` says which. -/
namespace Funbun.Bundler.TopLevelAwait
open TreeShaking (ImportKind)

structure Range where
  loc : Int
  len : Int
  deriving DecidableEq

structure ImportRecord where
  kind : ImportKind
  sourceIndex : Option Nat
  range : Range
  deriving DecidableEq

/-- One row of the columns: `top_level_await_keyword`, `import_records` and the path of the source -/
structure File where
  keyword : Range
  importRecords : List ImportRecord
  prettyPath : String
  deriving DecidableEq

/-- A linked graph: every index in it is in range. -/
structure Graph where
  files : List File
  records_valid : ∀ f ∈ files, ∀ record ∈ f.importRecords, ∀ j, record.sourceIndex = some j → j < files.length

/-- `parent` and `import_record_index` are absent for the invalid index. -/
structure TlaCheck where
  depth : Nat
  parent : Option Nat
  importRecordIndex : Option Nat
  deriving DecidableEq

def TlaCheck.default : TlaCheck := ⟨0, none, none⟩

/-- `Data`, with its location as the source and the range that it is computed from -/
structure Note where
  text : String
  location : Option (Nat × Range)
  deriving DecidableEq

/-- An error in the log, for the record of a file. -/
structure Report where
  source : Nat
  importRecordIndex : Nat
  range : Range
  text : String
  notes : List Note
  deriving DecidableEq

/-- The columns that are written, by file, and the log -/
structure State where
  checks : Nat → TlaCheck
  isAsync : Nat → Bool
  log : List Report

namespace State

def init : State := ⟨fun _ => .default, fun _ => false, []⟩

def setCheck (s : State) (i : Nat) (check : TlaCheck) : State := {s with checks := Function.update s.checks i check}

@[simp] theorem checks_setCheck_self (s : State) (i : Nat) (check : TlaCheck) : (s.setCheck i check).checks i = check :=
  Function.update_self ..

theorem checks_setCheck_of_ne (s : State) {i j : Nat} (check : TlaCheck) (h : j ≠ i) :
    (s.setCheck i check).checks j = s.checks j :=
  Function.update_of_ne h ..

end State

namespace Graph
variable (g : Graph)

def keyword (i : Nat) : Range := (g.files[i]?.map File.keyword).getD ⟨0, 0⟩

def importRecords (i : Nat) : List ImportRecord := (g.files[i]?.map File.importRecords).getD []

def prettyPath (i : Nat) : String := (g.files[i]?.map File.prettyPath).getD ""

def awaitNote (i : Nat) : Note :=
  ⟨"The top-level await in " ++ g.prettyPath i ++ " is here:", some (i, g.keyword i)⟩

def importNote (i parent : Nat) (record : ImportRecord) : Note :=
  ⟨"The file " ++ g.prettyPath i ++ " imports the file " ++ g.prettyPath parent ++ " here:", some (i, record.range)⟩

/-- The loop over the imports that lead to an await, with the path of the file that awaits. -/
def chain (s : State) : Nat → Nat → List Note → Option (List Note × String)
  | 0, _, _ => none
  | limit + 1, other, notes =>
    if 0 < (g.keyword other).len then some (notes ++ [g.awaitNote other], g.prettyPath other)
    else
      match (s.checks other).parent with
      | none => some (notes ++ [⟨"unexpected invalid index", none⟩], "")
      | some parent =>
        -- an index out of range is a panic
        ((s.checks other).importRecordIndex.bind fun i => (g.importRecords other)[i]?).bind fun record =>
          chain s limit parent (notes ++ [g.importNote other parent record])

def report (source importRecordIndex : Nat) (record : ImportRecord) (notes : List Note) (tlaPrettyPath : String) : Report where
  source := source
  importRecordIndex := importRecordIndex
  range := record.range
  -- the path that is compared is that of the file with the call
  text :=
    if g.prettyPath source = tlaPrettyPath then
      "This require call is not allowed because the imported file \"" ++ g.prettyPath source ++ "\" contains a top-level await"
    else
      "This require call is not allowed because the transitive dependency \"" ++ tlaPrettyPath ++
        "\" contains a top-level await"
  notes := notes

/-- What a record makes of the check of the file that it names. -/
def takeCheck (limit : Nat) (source importRecordIndex : Nat) (record : ImportRecord) (other : Nat) (s : State) :
    Option State :=
  let parent := s.checks other
  if parent.parent = none then some s
  else
    let result := s.checks source
    if record.kind = .stmt ∧ (result.parent = none ∨ parent.depth < result.depth) then
      some (s.setCheck source ⟨parent.depth + 1, some other, some importRecordIndex⟩)
    else if record.kind = .require then
      (g.chain s limit other []).map fun found =>
        {s with log := s.log ++ [g.report source importRecordIndex record found.1 found.2]}
    else some s

def visitRecord (validate : Nat → State → Option State) (limit source : Nat) (s : State) (entry : ImportRecord × Nat) :
    Option State :=
  match entry.1.sourceIndex with
  | none => some s
  | some other =>
    if entry.1.kind = .require ∨ entry.1.kind = .stmt then
      (validate other s).bind (g.takeCheck limit source entry.2 entry.1 other)
    else some s

/-- `validate_tla`, whose result is the check of the file -/
def validateTla (limit : Nat) : Nat → Nat → State → Option State
  | 0, _, _ => none
  | fuel + 1, i, s =>
    if (s.checks i).depth = 0 then
      let parent := if 0 < (g.keyword i).len then some i else (s.checks i).parent
      let s := s.setCheck i {s.checks i with depth := 1, parent := parent}
      ((g.importRecords i).zipIdx.foldlM (g.visitRecord (validateTla limit fuel) limit i) s).map fun s =>
        if (s.checks i).parent = none then s else {s with isAsync := Function.update s.isAsync i true}
    else some s

/-- The calls for all files, in some order -/
def validateAll (limit fuel : Nat) (order : List Nat) : Option State :=
  order.foldlM (fun s i => g.validateTla limit fuel i s) .init

/-! ### What is asynchronous -/

def HasAwait (i : Nat) : Prop := 0 < (g.keyword i).len

/-- An import statement of a bundled file -/
def Imports (i j : Nat) : Prop := ∃ record ∈ g.importRecords i, record.kind = .stmt ∧ record.sourceIndex = some j

/-- The file awaits, or leads to one that does through import statements. -/
def Async (i : Nat) : Prop := ∃ j, Relation.ReflTransGen g.Imports i j ∧ g.HasAwait j

/-! ### Depth-first search

The records and the order of the calls say which files are walked while a record is looked at, whatever they await. -/

/-- Where each file is met first: at a record of another one, or in a call of its own -/
abbrev Forest := Nat → Option (Option (Nat × Nat))

def searchRecord (search : Option (Nat × Nat) → Nat → Forest → Forest) (source : Nat) (forest : Forest)
    (entry : ImportRecord × Nat) : Forest :=
  match entry.1.sourceIndex with
  | none => forest
  | some other =>
    if entry.1.kind = .require ∨ entry.1.kind = .stmt then search (some (source, entry.2)) other forest else forest

/-- The files that are met from a file, each with the record that led to it -/
def search : Nat → Option (Nat × Nat) → Nat → Forest → Forest
  | 0, _, _, forest => forest
  | fuel + 1, origin, i, forest =>
    if forest i = none then
      (g.importRecords i).zipIdx.foldl (searchRecord (search fuel) i) (Function.update forest i (some origin))
    else forest

def forest (order : List Nat) : Forest :=
  order.foldl (fun forest i => g.search (g.files.length + 1) none i forest) fun _ => none

/-- Record `c` of `j` is the one that is looked at, or that is on the way to it. -/
inductive Open (forest : Forest) (j c : Nat) : Nat → Nat → Prop
  | self : Open forest j c j c
  | step {i k p m : Nat} (hmet : forest i = some (some (p, m))) (hopen : Open forest j c p m) : Open forest j c i k

/-- Record `k` of a file is of a kind and names a file. -/
def Names (kind : ImportKind) (i k j : Nat) : Prop :=
  ∃ record, (g.importRecords i)[k]? = some record ∧ record.kind = kind ∧ record.sourceIndex = some j

/-- A record leads back to a file that is open. That one does not await, and its import statements so far were cut as
well, or name files that are not asynchronous. -/
inductive Cut (forest : Forest) : Nat → Nat → Prop
  | back {i k j c : Nat} (hnames : g.Names .stmt i k j ∨ g.Names .require i k j) (hopen : Open forest j c i k)
    (hawait : ¬g.HasAwait j) (hbefore : ∀ c' < c, ∀ other, g.Names .stmt j c' other → g.Async other → Cut forest j c') :
    Cut forest i k

/-- Every file that is asynchronous but does not await itself has an import statement of such a file that is not cut. -/
def Answered (forest : Forest) : Prop :=
  ∀ i, g.Async i → ¬g.HasAwait i → ∃ k j, g.Names .stmt i k j ∧ g.Async j ∧ ¬g.Cut forest i k

/-- Nor is a `require` of such a file cut. -/
structure Unbroken (forest : Forest) : Prop where
  answered : g.Answered forest
  require : ∀ i k j, g.Names .require i k j → g.Async j → ¬g.Cut forest i k

end Graph
end Funbun.Bundler.TopLevelAwait
