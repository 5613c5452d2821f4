import Funbun.Library.Bits
import Funbun.Library.Calendar
import Funbun.Library.Checked
import Funbun.Strings.ParseInt

/-! Cron expressions: five fields, or a nickname.

A field is a list of numbers, ranges and steps, and is kept as a set of bits. Whether the field of the days and that of the
weekdays was `*` is kept beside them. -/
namespace Funbun.Cron
open Library Library.Bits Library.Calendar Strings

/-- The times of an expression, as sets of bits. -/
structure CronExpression where
  minutes : BitVec 64
  hours : BitVec 32
  days : BitVec 32
  months : BitVec 16
  weekdays : BitVec 8
  daysIsWildcard : Bool
  weekdaysIsWildcard : Bool
  deriving DecidableEq

inductive CronError where
  | invalidField
  | invalidStep
  | invalidRange
  | invalidNumber
  | tooManyFields
  | tooFewFields
  deriving DecidableEq

/-! ### Names -/

def allHours : BitVec 32 := (1 <<< 24) - 1

/-- `((1u64 << 32) - 1) as u32 & !1u32` -/
def allDays : BitVec 32 := ((1#64 <<< 32) - 1).setWidth 32 &&& ~~~1

/-- `((1u32 << 13) - 1) as u16 & !1u16` -/
def allMonths : BitVec 16 := ((1#32 <<< 13) - 1).setWidth 16 &&& ~~~1

def allWeekdays : BitVec 8 := (1 <<< 7) - 1

/-- `@yearly` and the others -/
def parseNickname (expr : List UInt8) : Option CronExpression :=
  if eqlCaseInsensitive expr (ascii "@yearly") || eqlCaseInsensitive expr (ascii "@annually") then
    some ⟨1, 1, 1 <<< 1, 1 <<< 1, allWeekdays, false, true⟩
  else if eqlCaseInsensitive expr (ascii "@monthly") then some ⟨1, 1, 1 <<< 1, allMonths, allWeekdays, false, true⟩
  else if eqlCaseInsensitive expr (ascii "@weekly") then some ⟨1, 1, allDays, allMonths, 1, true, false⟩
  else if eqlCaseInsensitive expr (ascii "@daily") || eqlCaseInsensitive expr (ascii "@midnight") then
    some ⟨1, 1, allDays, allMonths, allWeekdays, true, true⟩
  else if eqlCaseInsensitive expr (ascii "@hourly") then some ⟨1, allHours, allDays, allMonths, allWeekdays, true, true⟩
  else none

def weekdayMap : List (List UInt8 × Nat) :=
  [(ascii "sun", 0), (ascii "mon", 1), (ascii "tue", 2), (ascii "wed", 3), (ascii "thu", 4), (ascii "fri", 5),
    (ascii "sat", 6), (ascii "sunday", 0), (ascii "monday", 1), (ascii "tuesday", 2), (ascii "wednesday", 3),
    (ascii "thursday", 4), (ascii "friday", 5), (ascii "saturday", 6)]

def monthMap : List (List UInt8 × Nat) :=
  [(ascii "jan", 1), (ascii "feb", 2), (ascii "mar", 3), (ascii "apr", 4), (ascii "may", 5), (ascii "jun", 6),
    (ascii "jul", 7), (ascii "aug", 8), (ascii "sep", 9), (ascii "oct", 10), (ascii "nov", 11), (ascii "dec", 12),
    (ascii "january", 1), (ascii "february", 2), (ascii "march", 3), (ascii "april", 4), (ascii "june", 6),
    (ascii "july", 7), (ascii "august", 8), (ascii "september", 9), (ascii "october", 10), (ascii "november", 11),
    (ascii "december", 12)]

/-- `in_map_case_insensitive`. The keys are lowercase. -/
def inMapCaseInsensitive (str : List UInt8) (map : List (List UInt8 × Nat)) : Option Nat := map.lookup (str.map toLower)

/-! ### Fields -/

inductive NameKind where
  | none
  | weekday
  | month
  deriving DecidableEq

/-- A name or a number within its bounds. -/
def parseValue (str : List UInt8) (min max : Nat) (kind : NameKind) : Except CronError Nat :=
  let named :=
    match kind with
    | .weekday => inMapCaseInsensitive str weekdayMap
    | .month => inMapCaseInsensitive str monthMap
    | .none => none
  match named with
  | some v => .ok v
  | none =>
    match parseDecimal 255 str with
    | none => .error .invalidNumber
    | some val => if val < min ∨ max < val then .error .invalidNumber else .ok val

def dash : UInt8 := '-'.toUInt8

/-- The two sides of the only dash, if it is inside. -/
def splitRange (base : List UInt8) : Option (List UInt8 × List UInt8) :=
  match indexOfChar base dash with
  | none => none
  | some idx =>
    if idx = 0 ∨ idx = base.length - 1 then none
    else if (indexOfChar (base.drop (idx + 1)) dash).isSome then none
    else some (base.take idx, base.drop (idx + 1))

/-- The step behind a slash, or 1 -/
def parseStep : Option (List UInt8) → Except CronError Nat
  | none => .ok 1
  | some s =>
    if s = [] then .error .invalidStep
    else
      match parseDecimal 255 s with
      | some v => if v ≤ 127 then .ok v else .error .invalidStep
      | none => .error .invalidStep

/-- What a part of a field says -/
structure Part where
  rangeMin : Nat
  rangeMax : Nat
  step : Nat
  deriving DecidableEq

def star : List UInt8 := ['*'.toUInt8]

def slash : UInt8 := '/'.toUInt8

def comma : UInt8 := ','.toUInt8

/-- The turn of the loop of `parse_field`, up to where the bits are set. A value fails with `InvalidNumber` only. -/
def parsePart (part : List UInt8) (min max : Nat) (kind : NameKind) : Except CronError Part :=
  if part = [] then .error .invalidField
  else
    match part.splitOn slash with
    | [] => .error .invalidField
    | base :: rest =>
      if 1 < rest.length then .error .invalidStep
      else
        parseStep rest.head? >>= fun step =>
        if step = 0 then .error .invalidStep
        else if base = star then .ok ⟨min, max, step⟩
        else
          match splitRange base with
          | some (low, high) =>
            parseValue low min max kind >>= fun lo =>
            parseValue high min max kind >>= fun hi =>
            if hi < lo then .error .invalidRange else .ok ⟨lo, hi, step⟩
          | none => parseValue base min max kind >>= fun lo => .ok ⟨lo, if rest.head?.isSome then max else lo, step⟩

/-- The inner loop, from `i` on, with as many turns as there are numbers up to the end of the range -/
def setBits {w : Nat} (rangeMax step : Nat) : Nat → BitVec w → Nat → BitVec w
  | 0, result, _ => result
  | n + 1, result, i =>
    if i ≤ rangeMax then
      if rangeMax < i + step then result ||| 1#w <<< i else setBits rangeMax step n (result ||| 1#w <<< i) (i + step)
    else result

/-- The numbers of a part are added. -/
def addPart {w : Nat} (min max : Nat) (kind : NameKind) (result : BitVec w) (part : List UInt8) : Except CronError (BitVec w) := do
  let p ← parsePart part min max kind
  return setBits p.rangeMax p.step (p.rangeMax + 1 - p.rangeMin) result p.rangeMin

/-- Sunday is 7, too. -/
def foldSunday {w : Nat} (kind : NameKind) (result : BitVec w) : BitVec w :=
  if kind = .weekday then (result ||| result >>> 7) &&& BitVec.ofNat w 0x7F else result

/-- The set of a list of parts. -/
def parseField {w : Nat} (field : List UInt8) (min max : Nat) (kind : NameKind) : Except CronError (BitVec w) :=
  if field = [] then .error .invalidField else (field.splitOn comma).foldlM (addPart min max kind) 0 >>= fun result =>
    .ok (foldSunday kind result)

/-! ### Expressions -/

def isBlank (b : UInt8) : Bool := b == ' '.toUInt8 || b == '\t'.toUInt8

/-- `trim(.., b" \t")` -/
def trim (input : List UInt8) : List UInt8 := ((input.dropWhile isBlank).reverse.dropWhile isBlank).reverse

/-- The pieces between blanks -/
def words (expr : List UInt8) : List (List UInt8) := (expr.splitOnP isBlank).filter (· ≠ [])

/-- Five fields, or a nickname. -/
def parse (input : List UInt8) : Except CronError CronExpression :=
  let expr := trim input
  if expr.head? = some '@'.toUInt8 then (parseNickname expr).elim (.error .invalidField) .ok
  else
    match words expr with
    | [minute, hour, day, month, weekday] => do
      let minutes ← parseField minute 0 59 .none
      let hours ← parseField hour 0 23 .none
      let days ← parseField day 1 31 .none
      let months ← parseField month 1 12 .month
      let weekdays ← parseField weekday 0 7 .weekday
      return ⟨minutes, hours, days, months, weekdays, day = star, weekday = star⟩
    | fields => .error (if 5 < fields.length then .tooManyFields else .tooFewFields)

/-! ### Writing -/

/-- `*` for a full set, else its numbers. -/
def formatBitfield {w : Nat} (bits : BitVec w) (min max : Nat) : List UInt8 :=
  if countOnes bits = max - min + 1 then star
  else [comma].intercalate (((List.range' min (max - min + 1)).filter (bits.getLsbD ·)).map display)

def blank : List UInt8 := [' '.toUInt8]

/-- The writes to a buffer of 512 bytes, which is full when one fails -/
def formatNumeric (e : CronExpression) : Checked (List UInt8) :=
  let text := formatBitfield e.minutes 0 59 ++ blank ++ formatBitfield e.hours 0 23 ++ blank ++ formatBitfield e.days 1 31 ++
    blank ++ formatBitfield e.months 1 12 ++ blank ++ formatBitfield e.weekdays 0 6
  if text.length ≤ 512 then .ok text else .error .index

/-! ### Matching -/

def bitSet {w : Nat} (set : BitVec w) (pos : Nat) : Bool := set >>> pos &&& 1#w != 0#w

/-- Either day will do when both are given. -/
def CronExpression.dayMatch (e : CronExpression) (t : DateTime) : Bool :=
  let dayOk := bitSet e.days t.day
  let weekdayOk := bitSet e.weekdays t.weekday
  if !e.daysIsWildcard && !e.weekdaysIsWildcard then dayOk || weekdayOk else dayOk && weekdayOk

/-- What a time has to meet for the loop of `next` to return it -/
def CronExpression.matches (e : CronExpression) (t : DateTime) : Bool :=
  bitSet e.months t.month && e.dayMatch t && bitSet e.hours t.hour && bitSet e.minutes t.minute

end Funbun.Cron
