import Funbun.Library.Checked
import Funbun.Strings.ParseInt

/-! The replies of a Valkey server.

A reply is a type byte, a line, and for some types what the line announces: a text of so many bytes, or so many further
values. `readValue` makes a value of a reply. The scanner only looks for its end, and goes on from where it was when
more has come. -/
namespace Funbun.Valkey
open Library
open Strings (ascii toLower eqlCaseInsensitive parseInt)

/-- The doubles, and the function that reads one off the front of a text and tells how many bytes it took -/
structure Doubles (F : Type) where
  infinity : F
  negInfinity : F
  nan : F
  parseDouble : List UInt8 → F × Nat

section Doubles
variable {F : Type} (doubles : Doubles F)

def parseF64 (s : List UInt8) : Option F :=
  match s with
  | [] => none
  | c :: tail =>
    let (res, count) := doubles.parseDouble s
    if count = s.length then some res
    else if count = 0 then
      let neg := c = '-'.toUInt8
      let rest := if neg ∨ c = '+'.toUInt8 then tail else s
      if eqlCaseInsensitive rest (ascii "inf") ∨ eqlCaseInsensitive rest (ascii "infinity") then
        some (if neg then doubles.negInfinity else doubles.infinity)
      else if eqlCaseInsensitive rest (ascii "nan") then some doubles.nan
      else none
    else none

end Doubles

/-! ### Values -/

inductive RedisError where
  | invalidAttribute
  | invalidBlobError
  | invalidBoolean
  | invalidBulkString
  | invalidDouble
  | invalidInteger
  | invalidMap
  | invalidPush
  | invalidResponse
  | invalidResponseType
  | invalidSet
  | invalidVerbatimString
  | nestingDepthExceeded
  | lineTooLong
  deriving DecidableEq

inductive RESPType where
  | simpleString | error | integer | bulkString | array
  | null | double | boolean | blobError | verbatimString | map | set | attribute | push | bigNumber
  deriving DecidableEq

def RESPType.fromByte (byte : UInt8) : Option RESPType :=
  match Char.ofNat byte.toNat with
  | '+' => some .simpleString
  | '-' => some .error
  | ':' => some .integer
  | '$' => some .bulkString
  | '*' => some .array
  | '_' => some .null
  | ',' => some .double
  | '#' => some .boolean
  | '!' => some .blobError
  | '=' => some .verbatimString
  | '%' => some .map
  | '~' => some .set
  | '|' => some .attribute
  | '>' => some .push
  | '(' => some .bigNumber
  | _ => none

/-- The format has three bytes. -/
structure VerbatimString where
  format : List UInt8
  content : List UInt8
  deriving DecidableEq

/-- Of a bulk string and an array there is a null. A null array is empty here. -/
inductive RESPValue (F : Type) where
  | simpleString (str : List UInt8)
  | error (str : List UInt8)
  | integer (int : Int)
  | bulkString (str : Option (List UInt8))
  | array (values : List (RESPValue F))
  | null
  | double (d : F)
  | boolean (b : Bool)
  | blobError (str : List UInt8)
  | verbatimString (str : VerbatimString)
  | map (entries : List (RESPValue F × RESPValue F))
  | set (values : List (RESPValue F))
  | attribute (attributes : List (RESPValue F × RESPValue F)) (value : RESPValue F)
  | push (kind : List UInt8) (data : List (RESPValue F))
  | bigNumber (str : List UInt8)

/-! ### The reader -/

def maxNestingDepth : Nat := 128
def maxBulkLen : Int := 512 * 1024 * 1024
def maxLineLen : Nat := 512 * 1024

/-- How much memory is set aside for values is left out. -/
structure ValkeyReader where
  buffer : List UInt8
  pos : Nat
  crlfSkip : Nat

/-- Why reading stops: an error of the protocol, or a fault of the program -/
inductive Stop where
  | error (err : RedisError)
  | fault (fault : Fault)
  deriving DecidableEq

/-- What is read before an error stays read. -/
abbrev Read := ExceptT Stop (StateM ValkeyReader)

def fail {α : Type} (err : RedisError) : Read α := throw (.error err)

def usize (n : Int) : Read Nat := if 0 ≤ n then return n.toNat else throw (.fault .intCast)

def cr : UInt8 := '\r'.toUInt8
def lf : UInt8 := '\n'.toUInt8

/-- The first line break from an index on, among the first so many bytes. Its second byte may stand behind them. -/
def findCrlf : List UInt8 → Nat → Nat → Option Nat
  | byte :: bytes, i, n + 1 => if byte = cr ∧ bytes.head? = some lf then some i else findCrlf bytes (i + 1) n
  | _, _, _ => none

def readByte : Read UInt8 := do
  let reader ← get
  match reader.buffer[reader.pos]? with
  | none => fail .invalidResponse
  | some byte =>
    set {reader with pos := reader.pos + 1}
    return byte

def readUntilCrlf : Read (List UInt8) := do
  let reader ← get
  if reader.buffer.length < reader.pos then throw (.fault .index)
  else
    let buffer := reader.buffer.drop reader.pos
    let limit := min buffer.length (maxLineLen + 1)
    let start := min reader.crlfSkip limit
    match findCrlf (buffer.drop start) start (limit - start) with
    | some i =>
      set {reader with pos := reader.pos + i + 2, crlfSkip := 0}
      return buffer.take i
    | none =>
      set {reader with crlfSkip := 0}
      fail (if maxLineLen + 1 < buffer.length then .lineTooLong else .invalidResponse)

def readInteger : Read Int := do
  let str ← readUntilCrlf
  match parseInt str 10 with
  | .ok int => return int
  | .error _ => fail .invalidInteger

def readBoolean : Read Bool := do
  let str ← readUntilCrlf
  if str = ascii "t" then return true
  else if str = ascii "f" then return false
  else fail .invalidBoolean

/-- A text and the line break behind it, with the errors for one that is not all there and one that goes on -/
def readBlob (short invalid : RedisError) (len : Nat) : Read (List UInt8) := do
  let reader ← get
  if reader.buffer.length < reader.pos + len then fail short
  else
    set {reader with pos := reader.pos + len}
    let crlf ← readUntilCrlf
    if crlf = [] then return (reader.buffer.drop reader.pos).take len else fail invalid

def readVerbatimString : Read VerbatimString := do
  let len ← readInteger
  if len < 0 ∨ maxBulkLen < len then fail .invalidVerbatimString
  else
    let contentWithFormat ← readBlob .invalidVerbatimString .invalidVerbatimString (← usize len)
    if contentWithFormat.length < 4 ∨ contentWithFormat[3]? ≠ some ':'.toUInt8 then fail .invalidVerbatimString
    else return ⟨contentWithFormat.take 3, contentWithFormat.drop 4⟩

/-- A value after another -/
def readMany {α : Type} (read : Read α) : Nat → Read (List α)
  | 0 => return []
  | n + 1 => do
    let value ← read
    let values ← readMany read n
    return value :: values

section Values
variable {F : Type} (doubles : Doubles F)

def readDouble : Read F := do
  let str ← readUntilCrlf
  if str = ascii "inf" then return doubles.infinity
  else if str = ascii "-inf" then return doubles.negInfinity
  else if str = ascii "nan" then return doubles.nan
  else
    match parseF64 doubles str with
    | some d => return d
    | none => fail .invalidDouble

/-- The number in the line of an aggregate, which may not be nested too deep -/
def readLen (depth : Nat) : Read Int := if maxNestingDepth ≤ depth then fail .nestingDepthExceeded else readInteger

def readEntry (child : Read (RESPValue F)) : Read (RESPValue F × RESPValue F) := do
  let key ← child
  let value ← child
  return (key, value)

/-- The name of a push -/
def pushType : RESPValue F → Option (List UInt8)
  | .simpleString str => some str
  | .bulkString str => str
  | _ => none

/-- The body of `read_value_with_depth`. `child` is the same a level deeper. -/
def readType (depth : Nat) (child : Read (RESPValue F)) : RESPType → Read (RESPValue F)
  | .simpleString => return .simpleString (← readUntilCrlf)
  | .error => return .error (← readUntilCrlf)
  | .integer => return .integer (← readInteger)
  | .bulkString => do
    let len ← readInteger
    if len < 0 then return .bulkString none
    else if maxBulkLen < len then fail .invalidBulkString
    else return .bulkString (← readBlob .invalidResponse .invalidBulkString (← usize len))
  | .array => do
    let len ← readLen depth
    if len < 0 then return .array []
    else return .array (← readMany child (← usize len))
  | .null => do
    let _ ← readUntilCrlf
    return .null
  | .double => return .double (← readDouble doubles)
  | .boolean => return .boolean (← readBoolean)
  | .blobError => do
    let len ← readInteger
    if len < 0 ∨ maxBulkLen < len then fail .invalidBlobError
    else return .blobError (← readBlob .invalidBlobError .invalidBlobError (← usize len))
  | .verbatimString => return .verbatimString (← readVerbatimString)
  | .map => do
    let len ← readLen depth
    if len < 0 then fail .invalidMap
    else return .map (← readMany (readEntry child) (← usize len))
  | .set => do
    let len ← readLen depth
    if len < 0 then fail .invalidSet
    else return .set (← readMany child (← usize len))
  | .attribute => do
    let len ← readLen depth
    if len < 0 then fail .invalidAttribute
    else
      let attributes ← readMany (readEntry child) (← usize len)
      let value ← child
      return .attribute attributes value
  | .push => do
    let len ← readLen depth
    if len ≤ 0 then fail .invalidPush
    else
      match pushType (← child) with
      | none => fail .invalidPush
      | some kind => return .push kind (← readMany child (← usize (len - 1)))
  | .bigNumber => return .bigNumber (← readUntilCrlf)

/-- A level deeper, there is a turn less. -/
def readValueWithDepth : Nat → Nat → Read (RESPValue F)
  | 0, _ => throw (.fault .fuel)
  | n + 1, depth => do
    match RESPType.fromByte (← readByte) with
    | none => fail .invalidResponseType
    | some type => readType doubles depth (readValueWithDepth n (depth + 1)) type

/-- The value at the front of a buffer, and the position behind it -/
def readValue (buffer : List UInt8) : Except Stop (RESPValue F) × ValkeyReader :=
  readValueWithDepth doubles (maxNestingDepth + 1) 0 ⟨buffer, 0, 0⟩

end Values

/-! ### The scanner -/

def u64Max : Nat := 2 ^ 64 - 1

def saturatingMul (a b : Nat) : Nat := min (a * b) u64Max

def saturatingAdd (a b : Nat) : Nat := min (a + b) u64Max

inductive ScanResult where
  | complete
  | needMoreData
  deriving DecidableEq

/-- The innermost aggregate comes first here. -/
structure ReplyScanner where
  pos : Nat
  stack : List Nat
  crlfSkip : Nat
  deriving DecidableEq

/-- Past a text and its line break -/
def skipBlob (invalid : RedisError) (len : Nat) : Read Unit := do
  let reader ← get
  if reader.buffer.length < reader.pos then throw (.fault .overflow)
  else if reader.buffer.length - reader.pos < len + 2 then fail .invalidResponse
  else
    match reader.buffer[reader.pos + len]?, reader.buffer[reader.pos + len + 1]? with
    | some a, some b => if a ≠ cr ∨ b ≠ lf then fail invalid else set {reader with pos := reader.pos + len + 2}
    | _, _ => throw (.fault .index)

/-- The part of `scan_one` behind the type byte -/
def scanType (depth : Nat) : RESPType → Read (Option Nat)
  | .simpleString | .error | .integer | .null | .double | .boolean | .bigNumber => do
    let _ ← readUntilCrlf
    return none
  | .bulkString => do
    let len ← readInteger
    if len < 0 then return none
    else if maxBulkLen < len then fail .invalidBulkString
    else
      skipBlob .invalidBulkString (← usize len)
      return none
  | .blobError => do
    let len ← readInteger
    if len < 0 then fail .invalidBlobError
    else if maxBulkLen < len then fail .invalidBlobError
    else
      skipBlob .invalidBlobError (← usize len)
      return none
  | .verbatimString => do
    let len ← readInteger
    if len < 0 then fail .invalidVerbatimString
    else if maxBulkLen < len then fail .invalidVerbatimString
    else
      skipBlob .invalidVerbatimString (← usize len)
      return none
  | .array => do
    let len ← readLen depth
    if len < 0 then return some 0 else return some (← usize len)
  | .set => do
    let len ← readLen depth
    if len < 0 then fail .invalidSet else return some (← usize len)
  | .push => do
    let len ← readLen depth
    if len ≤ 0 then fail .invalidPush else return some (← usize len)
  | .map => do
    let len ← readLen depth
    if len < 0 then fail .invalidMap else return some (saturatingMul (← usize len) 2)
  | .attribute => do
    let len ← readLen depth
    if len < 0 then fail .invalidAttribute else return some (saturatingAdd (saturatingMul (← usize len) 2) 1)

/-- The number of values an aggregate is made of. A value that is no aggregate is skipped. -/
def scanOne (depth : Nat) : Read (Option Nat) := do
  match RESPType.fromByte (← readByte) with
  | none => fail .invalidResponseType
  | some type => scanType depth type

namespace ReplyScanner

/-- `Default`, and `reset` -/
def init : ReplyScanner := ⟨0, [], 0⟩

/-- A value is complete, and with it every aggregate it was the last value of. -/
def unwind : List Nat → Except Stop (List Nat)
  | [] => .ok []
  | remaining :: stack =>
    if remaining = 0 then .error (.fault .overflow)
    else if 0 < remaining - 1 then .ok ((remaining - 1) :: stack)
    else unwind stack

/-- What is not to be searched again for the end of a line -/
def skipAt (s : ReplyScanner) (reader : ValkeyReader) : Except Stop Nat :=
  if reader.pos = s.pos + 1 then
    if reader.buffer.length < reader.pos then .error (.fault .overflow) else .ok (reader.buffer.length - reader.pos - 1)
  else .ok 0

/-- A turn of the loop takes at least one byte. -/
def scanLoop (buffer : List UInt8) : Nat → ReplyScanner → Except Stop ScanResult × ReplyScanner
  | 0, s => (.error (.fault .fuel), s)
  | n + 1, s =>
    match scanOne s.stack.length ⟨buffer, s.pos, s.crlfSkip⟩ with
    | (.error (.error .invalidResponse), reader) =>
      match s.skipAt reader with
      | .ok crlfSkip => (.ok .needMoreData, {s with crlfSkip})
      | .error stop => (.error stop, s)
    | (.error stop, _) => (.error stop, s)
    | (.ok (some (children + 1)), reader) => scanLoop buffer n ⟨reader.pos, (children + 1) :: s.stack, 0⟩
    | (.ok _, reader) =>
      match unwind s.stack with
      | .error stop => (.error stop, s)
      | .ok [] => (.ok .complete, ⟨reader.pos, [], 0⟩)
      | .ok stack => scanLoop buffer n ⟨reader.pos, stack, 0⟩

def scan (s : ReplyScanner) (buffer : List UInt8) : Except Stop ScanResult × ReplyScanner :=
  scanLoop buffer (buffer.length + 1) s

end ReplyScanner

end Funbun.Valkey
