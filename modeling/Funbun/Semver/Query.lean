import Funbun.Semver.Range

/-! Queries: lists of ranges that all have to hold, of which one has to. -/
namespace Funbun.Semver

/-- Ranges that all have to hold, the first of which is always there -/
structure Query where
  range : Range
  next : List Range
  deriving DecidableEq

namespace Query

def ranges (q : Query) : List Range := q.range :: q.next

def satisfies (q : Query) (version : Version) (queryBuf versionBuf : List UInt8) : Bool :=
  q.ranges.all (·.satisfies version queryBuf versionBuf)

/-- The loop over the ranges, with whether one matched so far -/
def satisfiesPreLoop (version : Version) (queryBuf versionBuf : List UInt8) : List Range → Bool → Bool × Bool
  | [], preMatched => (true, preMatched)
  | r :: rest, preMatched =>
    match r.satisfiesPre version queryBuf versionBuf preMatched with
    | (true, preMatched) => satisfiesPreLoop version queryBuf versionBuf rest preMatched
    | (false, preMatched) => (false, preMatched)

def satisfiesPre (q : Query) (version : Version) (queryBuf versionBuf : List UInt8) (preMatched : Bool) : Bool × Bool :=
  satisfiesPreLoop version queryBuf versionBuf q.ranges preMatched

/-- A range is put in place of one that is unset. -/
def andRange (q : Query) (r : Range) : Query :=
  if !q.range.hasLeft && !q.range.hasRight then {q with range := r} else {q with next := q.next ++ [r]}

def ofRange (r : Range) : Query := ⟨r, []⟩

end Query

/-- The alternatives, the first of which is always there -/
structure Group where
  head : Query
  next : List Query
  flagPre : Bool
  flagBuild : Bool
  deriving DecidableEq

namespace Group

def empty : Group := ⟨.ofRange .unset, [], false, false⟩

def satisfies (g : Group) (version : Version) (groupBuf versionBuf : List UInt8) : Bool :=
  (g.head :: g.next).any fun q =>
    if version.tag.hasPre then
      let (satisfied, preMatched) := q.satisfiesPre version groupBuf versionBuf false
      satisfied && preMatched
    else q.satisfies version groupBuf versionBuf

def orVersion (g : Group) (version : Version) : Group :=
  if g.next = [] && !g.head.range.hasLeft then {g with head.range.left := ⟨.eql, version⟩}
  else {g with next := g.next ++ [.ofRange (.only .eql version)]}

def orRange (g : Group) (r : Range) : Group :=
  if g.next = [] && g.head.next = [] && !g.head.range.hasLeft then {g with head.range := r}
  else {g with next := g.next ++ [.ofRange r]}

/-- To the last alternative -/
def andRange (g : Group) (r : Range) : Group :=
  match g.next.getLast? with
  | none => {g with head := g.head.andRange r}
  | some q => {g with next := g.next.dropLast ++ [q.andRange r]}

def addFlags (g : Group) (tag : Tag) : Group :=
  {g with flagPre := g.flagPre || tag.hasPre, flagBuild := g.flagBuild || tag.hasBuild}

end Group

/-! ### Reading -/

section Parse
variable (wyhash : List UInt8 → UInt64)

/-- `input[i..]` -/
def suffix (input : List UInt8) (i : Nat) : Checked (List UInt8) :=
  if i ≤ input.length then .ok (input.drop i) else .error .index

/-- `input[i]` -/
def byteAt (input : List UInt8) (i : Nat) : Checked UInt8 :=
  match input[i]? with
  | some c => .ok c
  | none => .error .index

def lengthOfLeadingWhitespace (input : List UInt8) : Nat := (input.takeWhile isWhitespace).length

structure Lead where
  i : Nat
  tag : TokenTag
  isOr : Bool
  skipRound : Bool

/-- What stands before a version: the `match` on the byte at `i`. -/
def parseLead (input : List UInt8) (c : UInt8) (i : Nat) (tag : TokenTag) (isOr : Bool) : Lead :=
  if c = 62 then  -- '>'
    if input[i + 1]? = some 61 then ⟨skipWhile isSpace input (i + 2), .gte, isOr, false⟩
    else ⟨skipWhile isSpace input (i + 1), .gt, isOr, false⟩
  else if c = 60 then  -- '<'
    if input[i + 1]? = some 61 then ⟨skipWhile isSpace input (i + 2), .lte, isOr, false⟩
    else ⟨skipWhile isSpace input (i + 1), .lt, isOr, false⟩
  else if isSeparator c then ⟨skipWhile isSpace input (i + 1), .version, true, false⟩
  else if c = 126 then  -- '~'
    let i := if input[i + 1]? = some 62 then i + 2 else i + 1
    ⟨skipWhile isSpace input i, .tilda, isOr, false⟩
  else if c = 94 then ⟨skipWhile isSpace input (i + 1), .caret, isOr, false⟩  -- '^'
  else if isDigit c || isX c then ⟨i, .version, true, false⟩
  else if c = 124 then  -- '|'
    ⟨skipWhile isSpace input (skipWhile (· == 124) input (i + 1)), .none, true, true⟩
  else if isDash c then ⟨skipWhile isSpace input (i + 1), tag, isOr, false⟩
  else if isSpace c then ⟨skipWhile isSpace input (i + 1), tag, isOr, true⟩
  else ⟨skipWhile (fun c => !isSpace c && c != 124) input (i + 1), .none, isOr, true⟩

/-- Where the second version of a hyphenated range starts, if there is one -/
def hyphenate (input : List UInt8) (i : Nat) : Checked (Option Nat) :=
  if at? (fun c => isSpace c || isDash c) input i then do
    let i := i + lengthOfLeadingWhitespace (← suffix input i)
    if !at? isDash input i then return none
    let i := i + 1
    let i := i + lengthOfLeadingWhitespace (← suffix input i)
    if i = input.length then return none
    let i := if isSeparator (← byteAt input i) then i + 1 else i
    if i = input.length then return none
    let i := i + lengthOfLeadingWhitespace (← suffix input i)
    if i = input.length then return none
    if !at? (fun c => isDigit c || isX c) input i then return none
    return some i
  else return none

open Range (saturatingSucc)

def hyphenRange (version second : Version) : Wildcard → Range
  | .major => .only .gte version
  | .minor => ⟨⟨.gte, version⟩, ⟨.lt, {second with major := saturatingSucc second.major, minor := 0, patch := 0}⟩⟩
  | .patch => ⟨⟨.gte, version⟩, ⟨.lt, {second with minor := saturatingSucc second.minor, patch := 0}⟩⟩
  | .none => ⟨⟨.gte, version⟩, ⟨.lte, second⟩⟩

/-- `count` has 32 bits. -/
structure ParseState where
  i : Nat
  list : Group
  tag : TokenTag
  count : UInt32
  isOr : Bool

/-- The comparator of a token, where `r` was read -/
def addComparator (list : Group) (token : Token) (count : UInt32) (isOr : Bool) (r : ParseResult) : Checked Group := do
  if count = 0 ∧ token.tag = .version then
    if r.wildcard = .none then return list.orVersion r.version.min
    else return list.orRange (← token.toRange r.version)
  else if count = 0 then return list.andRange (← token.toRange r.version)
  else if isOr then return list.orRange (← token.toRange r.version)
  else return list.andRange (← token.toRange r.version)

/-- One turn of the loop, at the byte `c` -/
def parseTurn (s : SlicedString) (st : ParseState) (c : UInt8) : Checked ParseState := do
  let input := s.input
  let lead := parseLead input c st.i st.tag st.isOr
  if lead.skipRound then return {st with i := lead.i, tag := lead.tag, isOr := lead.isOr}
  let r ← Version.parse wyhash (← s.sub lead.i input.length)
  let version := r.version.min
  let list := st.list.addFlags version.tag
  let rollback := lead.i + r.len
  match ← hyphenate input rollback with
  | some i =>
    let second ← Version.parse wyhash (← s.sub i input.length)
    let list := list.addFlags second.version.min.tag
    let range := hyphenRange version second.version.min second.wildcard
    let list := if lead.isOr then list.orRange range else list.andRange range
    return ⟨i + second.len + 1, list, lead.tag, st.count + 1, false⟩
  | none =>
    -- no comparator is pending, so the chunk is skipped
    if lead.tag = .none then return ⟨rollback + 1, list, lead.tag, st.count, lead.isOr⟩
    let list ← addComparator list ⟨lead.tag, r.wildcard⟩ st.count lead.isOr r
    return ⟨rollback + 1, list, lead.tag, st.count + 1, false⟩

def parseLoop (s : SlicedString) : Nat → ParseState → Checked Group
  | 0, _ => .error .fuel
  | fuel + 1, st =>
    match s.input[st.i]? with
    | none => .ok st.list
    | some c => do parseLoop s fuel (← parseTurn wyhash s st c)

/-- `query::parse` -/
def parse (s : SlicedString) : Checked Group := parseLoop wyhash s (s.input.length + 1) ⟨0, .empty, .none, 0, false⟩

end Parse

end Funbun.Semver
