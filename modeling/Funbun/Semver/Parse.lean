import Mathlib.Data.Nat.Digits.Defs
import Funbun.Semver.Version

/-! Reading versions.

Every index and every slice is checked as the program checks it: a `Fault` is a place where it would stop. -/
namespace Funbun.Semver

inductive Fault where
  | index
  | intCast
  | unreachable
  /-- No fault of the program: the loop was not given enough turns. -/
  | fuel
  deriving DecidableEq

abbrev Checked := Except Fault

/-! ### Bytes -/

def isDigit (c : UInt8) : Bool := 48 ≤ c && c ≤ 57

def isAlphabetic (c : UInt8) : Bool := 65 ≤ c && c ≤ 90 || 97 ≤ c && c ≤ 122

/-- `x`, `*` or `X` -/
def isX (c : UInt8) : Bool := c == 120 || c == 42 || c == 88

def isSpace (c : UInt8) : Bool := c == 32

def isDot (c : UInt8) : Bool := c == 46

def isDash (c : UInt8) : Bool := c == 45

def isPlus (c : UInt8) : Bool := c == 43

/-- Blanks, ends of lines, tabs and form feeds -/
def isWhitespace (c : UInt8) : Bool := c == 32 || c == 9 || c == 10 || c == 13 || c == 11 || c == 12

/-- `v` or `=` -/
def isSeparator (c : UInt8) : Bool := c == 118 || c == 61

/-- `|`, `^`, `#`, `&`, `%` or `!` -/
def isBreak (c : UInt8) : Bool := c == 124 || c == 94 || c == 35 || c == 38 || c == 37 || c == 33

def isTagCharacter (c : UInt8) : Bool := isAlphabetic c || isDigit c || isDot c

/-- `while i < input.len() && p(input[i]) { i += 1 }` -/
def skipWhile (p : UInt8 → Bool) (input : List UInt8) (i : Nat) : Nat := i + ((input.drop i).takeWhile p).length

/-- `i < input.len() && p(input[i])` -/
def at? (p : UInt8 → Bool) (input : List UInt8) (i : Nat) : Bool := (input[i]?).any p

/-! ### Slices -/

/-- A slice of what lies at the address `buf` -/
structure SlicedString where
  buf : Nat
  slice : Slice

namespace SlicedString

def input (s : SlicedString) : List UInt8 := s.slice.bytes

/-- `sub(&input[start..stop])` -/
def sub (s : SlicedString) (start stop : Nat) : Checked SlicedString :=
  if start ≤ stop ∧ stop ≤ s.input.length then
    .ok ⟨s.buf, s.slice.addr + start, (s.input.drop start).take (stop - start)⟩
  else .error .index

def external (wyhash : List UInt8 → UInt64) (s : SlicedString) : ExternalString :=
  ⟨.init s.buf s.slice, wyhash s.input⟩

end SlicedString

/-- Eight zero bytes -/
def SemverString.empty : SemverString := ⟨[0, 0, 0, 0, 0, 0, 0, 0], rfl⟩

def ExternalString.empty : ExternalString := ⟨.empty, 0⟩

def Tag.empty : Tag := ⟨.empty, .empty⟩

def Tag.hasBuild (t : Tag) : Bool := !t.build.isEmpty

/-! ### Tags -/

section Parse
variable (wyhash : List UInt8 → UInt64)

structure TagResult where
  tag : Tag
  len : Nat

inductive TagState where
  | none | pre | build
  deriving DecidableEq

/-- The loop over `rest`, the input from `i` on: the tag so far, the state with the start of its part, and `i`. -/
def Tag.scan (s : SlicedString) (initialPreCount : Nat) :
    List UInt8 → Nat → TagState → Nat → Tag → Checked (Tag × TagState × Nat × Nat)
  | [], i, state, start, tag => .ok (tag, state, start, i)
  | c :: rest, i, state, start, tag =>
    if isPlus c then do
      let tag ←
        if state = .pre ∨ state = .none ∧ 0 < initialPreCount then do
          .ok {tag with pre := (← s.sub start i).external wyhash}
        else .ok tag
      if state ≠ .build then Tag.scan s initialPreCount rest (i + 1) .build (i + 1) tag
      else Tag.scan s initialPreCount rest (i + 1) state start tag
    else if isDash c then
      if state ≠ .pre then Tag.scan s initialPreCount rest (i + 1) .pre (i + 1) tag
      else Tag.scan s initialPreCount rest (i + 1) state start tag
    else if isTagCharacter c then Tag.scan s initialPreCount rest (i + 1) state start tag
    else
      match state with
      | .none => .ok (tag, .none, start, i)
      | .pre => do .ok ({tag with pre := (← s.sub start i).external wyhash}, .none, start, i)
      | .build => do .ok ({tag with build := (← s.sub start i).external wyhash}, .none, start, i)

/-- Counts and lengths have 32 bits. -/
def Tag.parseWithPreCount (s : SlicedString) (initialPreCount : Nat) : Checked TagResult :=
  let head := s.input.takeWhile (!isSpace ·)
  if head.countP isPlus % UInt32.size = 0 ∧ (initialPreCount + head.countP isDash) % UInt32.size = 0 then
    .ok ⟨.empty, 0⟩
  else do
    let (tag, state, start, i) ← Tag.scan wyhash s initialPreCount s.input 0 .none 0 .empty
    let (state, start) := if state = .none ∧ 0 < initialPreCount then (.pre, 0) else (state, start)
    match state with
    | .none => .ok ⟨tag, i % UInt32.size⟩
    | .pre => do .ok ⟨{tag with pre := (← s.sub start i).external wyhash}, i % UInt32.size⟩
    | .build => do .ok ⟨{tag with build := (← s.sub start i).external wyhash}, i % UInt32.size⟩

def Tag.parse (s : SlicedString) : Checked TagResult := Tag.parseWithPreCount wyhash s 0

/-! ### Versions -/

/-- `Partial` -/
structure PartialVersion where
  major : Option UInt64
  minor : Option UInt64
  patch : Option UInt64
  tag : Tag
  deriving DecidableEq

def PartialVersion.empty : PartialVersion := ⟨none, none, none, .empty⟩

/-- Components that are missing are zero. -/
def PartialVersion.min (p : PartialVersion) : Version :=
  ⟨p.major.getD 0, p.minor.getD 0, p.patch.getD 0, p.tag⟩

inductive Wildcard where
  | none | major | minor | patch
  deriving DecidableEq

structure ParseResult where
  wildcard : Wildcard
  valid : Bool
  version : PartialVersion
  len : Nat
  deriving DecidableEq

def ParseResult.empty : ParseResult := ⟨.none, true, .empty, 0⟩

/-- The digits of a component, unless there is a wildcard or there are more than 20 -/
def collectDigits : List UInt8 → List UInt8 → Option (List UInt8)
  | [], digits => some digits
  | c :: rest, digits =>
    if isX c then none
    else if isDigit c then if 20 < digits.length + 1 then none else collectDigits rest (digits ++ [c])
    else if isSpace c || isDot c then some digits
    else collectDigits rest digits

/-- A number that does not fit is zero. -/
def parseVersionNumber (input : List UInt8) : Option UInt64 :=
  match collectDigits input [] with
  | none | some [] => none
  | some digits => some (UInt64.ofNat ((parseAscii digits).getD 0))

/-- The component that comes after `part` others -/
def ParseResult.setPart (r : ParseResult) (part : Nat) (number : Option UInt64) : ParseResult :=
  match part with
  | 0 => {r with version.major := number}
  | 1 => {r with version.minor := number}
  | 2 => {r with version.patch := number}
  | _ => r

/-- The wildcard that stands for the components after `part` others -/
def Wildcard.ofPart : Nat → Wildcard
  | 0 => .major
  | 1 => .minor
  | 2 => .patch
  | _ => .none

def nextPart (part : Nat) : Nat := if part < 3 then part + 1 else part

/-- The loop over the input: the result so far, the number of its components, and the index. -/
def Version.parseLoop (s : SlicedString) : Nat → Nat → Nat → ParseResult → Checked (ParseResult × Nat × Nat)
  | 0, _, _, _ => .error .fuel
  | fuel + 1, i, part, r =>
    match s.input[i]? with
    | none => .ok (r, part, i)
    | some c =>
      if isSpace c then .ok (r, part, i)
      else if isBreak c then .ok (r, part, i - 1)
      else if isDigit c then do
        let stop := skipWhile isDigit s.input (i + 1)
        let digits ← s.sub i stop
        let r := r.setPart part (parseVersionNumber digits.input)
        let part := nextPart part
        -- a dot is expected only if there are remaining components
        let i := if at? isDot s.input stop ∧ part ≠ 3 then stop + 1 else stop
        Version.parseLoop s fuel i part r
      else if isDot c then .ok ({r with valid := false}, part, i)
      else if isDash c || isPlus c then
        -- a tag with no version is invalid
        if part < 2 ∧ r.wildcard = .none then .ok ({r with valid := false}, part, i)
        else do
          let stop := skipWhile isSpace s.input i
          let tagged ← Tag.parse wyhash (← s.sub i s.input.length)
          .ok ({r with version.tag := tagged.tag}, part, stop + tagged.len)
      else if isX c then
        let stop := skipWhile isX s.input (i + 1)
        let i := if at? isDot s.input stop then stop + 1 else stop
        if r.wildcard = .none then
          Version.parseLoop s fuel i (nextPart part) {r with wildcard := .ofPart part}
        else Version.parseLoop s fuel i part r
      else if r.wildcard = .none ∧ 2 ≤ part ∧ isAlphabetic c then do
        -- a tag without its dash
        let tagged ← Tag.parseWithPreCount wyhash (← s.sub i s.input.length) 1
        .ok ({r with version.tag := tagged.tag}, part, i + tagged.len)
      else .ok ({r with valid := false}, part, i)

/-- Blanks and separators before a version are skipped, unless there is nothing else. -/
def Version.skipLead (input : List UInt8) : Nat :=
  (input.findIdx? fun c => !(isWhitespace c || isSeparator c)).getD 0

def Version.parse (s : SlicedString) : Checked ParseResult :=
  if s.input = [] then .ok {ParseResult.empty with valid := false}
  else do
    let (r, part, i) ← Version.parseLoop wyhash s (s.input.length + 1) (Version.skipLead s.input) 0 .empty
    let r := if r.wildcard = .none then {r with wildcard := .ofPart part} else r
    if i < UInt32.size then .ok {r with len := i} else .error .intCast

end Parse

/-! ### Text -/

/-- The digits of a number -/
def formatNumber (n : UInt64) : List UInt8 :=
  if n = 0 then [48] else (Nat.digits 10 n.toNat).reverse.map fun d => UInt8.ofNat (48 + d)

/-- `Formatter` -/
def Version.fmt (v : Version) (input : List UInt8) : List UInt8 :=
  formatNumber v.major ++ [46] ++ formatNumber v.minor ++ [46] ++ formatNumber v.patch ++
    (if v.tag.hasPre then 45 :: v.tag.pre.value.slice input else []) ++
    (if v.tag.hasBuild then 43 :: v.tag.build.value.slice input else [])

end Funbun.Semver
