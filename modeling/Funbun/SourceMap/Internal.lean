import Funbun.Library.Bytes
import Funbun.SourceMap.Mappings

/-! The in-memory source map.

Mappings are stored in windows of up to 64. A window starts with the whole state of its first mapping, and holds the
differences to the following ones: in bits where they are as usual, in streams of numbers where they are not. -/
namespace Funbun.SourceMap.Internal
open Library

def syncInterval : Nat := 64
def headerSize : Nat := 32

/-! ### Numbers -/

def zigzagEncode (value : Int) : Nat :=
  let value := BitVec.ofInt 32 value
  ((value <<< 1) ^^^ value.sshiftRight 31).toNat

def zigzagDecode (value : Nat) : Int :=
  let value := BitVec.ofNat 32 value
  ((value >>> 1) ^^^ -(value &&& 1#32)).toInt

def maxVarintLen : Nat := 5

def varintBytes : Nat → Nat → List UInt8
  | 0, _ => []
  | n + 1, v =>
    if v >>> 7 ≠ 0 then UInt8.ofNat (v &&& 0x7f ||| 0x80) :: varintBytes n (v >>> 7) else [UInt8.ofNat (v &&& 0x7f)]

/-- The loop ends by itself: 32 bits are five bytes at most. -/
def writeVarint (signed : Int) : List UInt8 := varintBytes maxVarintLen (zigzagEncode signed)

/-- The bytes behind the first one -/
def readVarintRest (bytes : List UInt8) : Nat → Nat → Nat → Nat → Nat × Nat
  | 0, i, _, result => (result, i)
  | n + 1, i, shift, result =>
    if bytes.length ≤ i ∨ 28 < shift then (result, i)
    else
      let byte := (bytes.getD i 0).toNat
      let result := result ||| ((byte &&& 0x7f) <<< shift) % UInt32.size
      if byte &&& 0x80 = 0 then (result, i + 1) else readVarintRest bytes n (i + 1) (shift + 7) result

/-- The number at a position, and the position behind it -/
def readVarint (bytes : List UInt8) (pos : Nat) : Int × Nat :=
  let first := (bytes.getD pos 0).toNat
  if first < 0x80 then (zigzagDecode first, pos + 1)
  else
    let (result, pos) := readVarintRest bytes maxVarintLen (pos + 1) 7 (first &&& 0x7f)
    (zigzagDecode result, pos)

/-! ### Bits -/

def testBit (bytes : List UInt8) (base idx : Nat) : Bool :=
  (((bytes.getD (base + idx >>> 3) 0).toNat >>> (idx &&& 7)) &&& 1) != 0

def setBit (mask : List UInt8) (k : Nat) : List UInt8 :=
  mask.modify (k >>> 3) fun byte => UInt8.ofNat (byte.toNat ||| 1 <<< (k &&& 7))

/-! ### Writing -/

structure SyncEntry where
  generatedLine : Int
  generatedColumn : Int
  byteOffset : Nat
  originalLine : Int
  originalColumn : Int
  sourceIndex : Int
  deriving DecidableEq

def flagHasGenLineExceptions : Nat := 1 <<< 2
def flagHasSrcIdx : Nat := 1 <<< 3

def genLineMaskOff : Nat := 8
def origLineEqMaskOff : Nat := 16
def origColEqMaskOff : Nat := 24
def genColLaneOff : Nat := 32

/-- How a mapping differs from the one before. On another line its generated column is the whole column. -/
structure Delta where
  genLine : Int
  genCol : Int
  origLine : Int
  origCol : Int
  srcIdx : Int

def delta (prev current : SourceMapState) : Delta where
  genLine := i32 (current.generatedLine - prev.generatedLine)
  genCol :=
    if i32 (current.generatedLine - prev.generatedLine) ≠ 0 then current.generatedColumn
    else i32 (current.generatedColumn - prev.generatedColumn)
  origLine := i32 (current.originalLine - prev.originalLine)
  origCol := i32 (current.originalColumn - prev.originalColumn)
  srcIdx := i32 (current.sourceIndex - prev.sourceIndex)

/-- The streams of a window while it is written -/
structure Lanes where
  genLineMask : List UInt8
  origLineEqMask : List UInt8
  origColEqMask : List UInt8
  srcIdxMask : List UInt8
  genCol : List UInt8
  origLine : List UInt8
  origCol : List UInt8
  genLine : List UInt8
  srcIdx : List UInt8
  flags : Nat

def Lanes.empty : Lanes :=
  ⟨.replicate 8 0, .replicate 8 0, .replicate 8 0, .replicate 8 0, [], [], [], [], [], 0⟩

def Delta.isException (d : Delta) : Bool := 1 < d.genLine || d.genLine < 0

/-- One turn of the loop of `flush_window` -/
def Lanes.write (s : Lanes) (entry : Delta × Nat) : Lanes :=
  let (d, k) := entry
  { genLineMask := if 1 ≤ d.genLine then setBit s.genLineMask k else s.genLineMask
    genCol := s.genCol ++ writeVarint d.genCol
    origLineEqMask := if d.origLine = d.genLine then setBit s.origLineEqMask k else s.origLineEqMask
    origLine := if d.origLine = d.genLine then s.origLine else s.origLine ++ writeVarint d.origLine
    origColEqMask := if d.origCol = d.genCol then setBit s.origColEqMask k else s.origColEqMask
    origCol := if d.origCol = d.genCol then s.origCol else s.origCol ++ writeVarint d.origCol
    genLine := if d.isException then s.genLine ++ UInt8.ofNat k :: writeVarint d.genLine else s.genLine
    srcIdxMask := if d.srcIdx = 0 then setBit s.srcIdxMask k else s.srcIdxMask
    srcIdx := if d.srcIdx = 0 then s.srcIdx else s.srcIdx ++ writeVarint d.srcIdx
    flags :=
      (if d.isException then s.flags ||| flagHasGenLineExceptions else s.flags) |||
        if d.srcIdx = 0 then 0 else flagHasSrcIdx }

def deltas (window : List SourceMapState) : List Delta := List.zipWith delta window window.tail

def lanes (window : List SourceMapState) : Lanes := (deltas window).zipIdx.foldl Lanes.write .empty

/-- The stream of exceptional lines is closed by a byte that is no index. -/
def Lanes.genLineStream (s : Lanes) : List UInt8 :=
  if s.flags &&& flagHasGenLineExceptions ≠ 0 then s.genLine ++ [0xFF] else s.genLine

def Lanes.srcIdxStream (s : Lanes) : List UInt8 := if s.flags &&& flagHasSrcIdx ≠ 0 then s.srcIdxMask ++ s.srcIdx else []

def Lanes.header (s : Lanes) (n : Nat) : List UInt8 :=
  [UInt8.ofNat n, UInt8.ofNat s.flags] ++ leBytes 2 s.genCol.length ++ leBytes 2 s.origLine.length ++
    leBytes 2 s.origCol.length ++ s.genLineMask ++ s.origLineEqMask ++ s.origColEqMask

/-- What `flush_window` adds to the stream -/
def windowBytes (window : List SourceMapState) : List UInt8 :=
  let s := lanes window
  s.header window.length ++ s.genCol ++ s.origLine ++ s.origCol ++ s.genLineStream ++ s.srcIdxStream

/-- The columns of the pending window are rows here. -/
structure Builder where
  generatedLine : Int
  pendingGeneratedLineDelta : Int
  count : Nat
  pending : List SourceMapState
  syncEntries : List SyncEntry
  winStream : List UInt8

namespace Builder

def init : Builder := ⟨0, 0, 0, [], [], []⟩

def appendLineSeparator (b : Builder) : Builder :=
  {b with pendingGeneratedLineDelta := i32 (b.pendingGeneratedLineDelta + 1)}

def flushWindow (b : Builder) : Builder :=
  match b.pending with
  | [] => b
  | first :: _ =>
    { b with
      syncEntries := b.syncEntries ++
        [⟨first.generatedLine, first.generatedColumn, b.winStream.length % UInt32.size, first.originalLine,
          first.originalColumn, first.sourceIndex⟩]
      winStream := b.winStream ++ windowBytes b.pending
      pending := [] }

def appendMapping (b : Builder) (current : SourceMapState) : Builder :=
  let generatedLine := i32 (b.generatedLine + b.pendingGeneratedLineDelta)
  let b :=
    { b with
      generatedLine
      pendingGeneratedLineDelta := 0
      pending := b.pending ++ [{current with generatedLine}]
      count := (b.count + 1) % UInt32.size }
  if b.pending.length = syncInterval then b.flushWindow else b

end Builder

/-! ### The blob -/

/-- The bits of an `i32` -/
def i32Bytes (n : Int) : List UInt8 := leBytes 4 (n % UInt32.size).toNat

def ofI32Bytes (bytes : List UInt8) : Int := i32 (ofLeBytes bytes)

def SyncEntry.bytes (e : SyncEntry) : List UInt8 :=
  i32Bytes e.generatedLine ++ i32Bytes e.generatedColumn ++ leBytes 4 e.byteOffset ++ i32Bytes e.originalLine ++
    i32Bytes e.originalColumn ++ i32Bytes e.sourceIndex

/-- `finalize`. It panics where a number of entries or an offset is no `u32`. -/
def Builder.finalize (b : Builder) : Option (List UInt8) :=
  let b := b.flushWindow
  let streamOffset := headerSize + b.syncEntries.length * 24
  if b.syncEntries.length < UInt32.size ∧ streamOffset < UInt32.size then
    some (List.replicate 24 0 ++ leBytes 4 b.syncEntries.length ++ leBytes 4 streamOffset ++
      b.syncEntries.flatMap SyncEntry.bytes ++ b.winStream ++ [0])
  else none

/-- `generate_chunk` writes the first three numbers. -/
def generateChunk (blob : List UInt8) (count inputLineCount : Nat) : List UInt8 :=
  leBytes 8 blob.length ++ leBytes 8 count ++ leBytes 8 inputLineCount ++ blob.drop 24

section Blob
variable (blob : List UInt8)

def readNumber (offset width : Nat) : Nat := ofLeBytes ((blob.drop offset).take width)

def readI32 (offset : Nat) : Int := ofI32Bytes ((blob.drop offset).take 4)

def totalLen : Nat := readNumber blob 0 8
def syncCount : Nat := readNumber blob 24 4
def streamOffset : Nat := readNumber blob 28 4

def syncEntry (index : Nat) : SyncEntry :=
  let off := headerSize + index * 24
  ⟨readI32 blob off, readI32 blob (off + 4), readNumber blob (off + 8) 4, readI32 blob (off + 12),
    readI32 blob (off + 16), readI32 blob (off + 20)⟩

def stream : List UInt8 := (blob.drop (streamOffset blob)).take (totalLen blob - streamOffset blob)

end Blob

def SyncEntry.toState (e : SyncEntry) : SourceMapState :=
  ⟨e.generatedLine, e.generatedColumn, e.sourceIndex, e.originalLine, e.originalColumn⟩

/-! ### Reading -/

structure WindowReader where
  bytes : List UInt8
  base : Nat
  genColPos : Nat
  origLineExcPos : Nat
  origColExcPos : Nat
  genLineExcPos : Nat
  srcIdxMask : Nat
  srcIdxExcPos : Nat
  count : Nat
  flags : Nat
  genLineExcNextIdx : Nat
  deltaIdx : Nat

namespace WindowReader

def dangling : WindowReader := ⟨[], 0, 0, 0, 0, 0, 0, 0, 0, 0, 0, 0⟩

/-- Past the pairs of an index and a number, to the byte that closes them -/
def skipExceptions (bytes : List UInt8) : Nat → Nat → Nat
  | 0, pos => pos
  | n + 1, pos =>
    if pos < bytes.length ∧ bytes.getD pos 0 ≠ 0xFF then skipExceptions bytes n (readVarint bytes (pos + 1)).2 else pos

/-- The fixed part of the header -/
def parseHeader (r : WindowReader) (bytes : List UInt8) (start : Nat) : WindowReader × Nat :=
  let genColPos := start + genColLaneOff
  let origLineExcPos := genColPos + readNumber bytes (start + 2) 2
  let origColExcPos := origLineExcPos + readNumber bytes (start + 4) 2
  ({ r with
      bytes, base := start, genColPos, origLineExcPos, origColExcPos
      count := min (bytes.getD start 0).toNat syncInterval
      flags := (bytes.getD (start + 1) 0).toNat
      deltaIdx := 0
      genLineExcNextIdx := 0xFF },
    origColExcPos + readNumber bytes (start + 6) 2)

def parseLines (r : WindowReader) (pos : Nat) : WindowReader × Nat :=
  if r.flags &&& flagHasGenLineExceptions ≠ 0 ∧ pos < r.bytes.length then
    ({r with genLineExcPos := pos, genLineExcNextIdx := (r.bytes.getD pos 0).toNat},
      skipExceptions r.bytes r.bytes.length pos + 1)
  else (r, pos)

def parseSources (r : WindowReader) (pos : Nat) : WindowReader :=
  if r.flags &&& flagHasSrcIdx ≠ 0 then {r with srcIdxMask := pos, srcIdxExcPos := pos + 8} else r

def parse (r : WindowReader) (bytes : List UInt8) (start : Nat) : WindowReader :=
  let (r, pos) := r.parseHeader bytes start
  let (r, pos) := r.parseLines pos
  r.parseSources pos

def done (r : WindowReader) : Bool := r.count ≤ r.deltaIdx + 1

/-- `next_rare`, the exceptional line. It is also the original one's where these are equal. -/
def nextLine (r : WindowReader) (deltaIdx : Nat) (genLine origLine : Int) : WindowReader × Int × Int :=
  if r.genLineExcNextIdx = deltaIdx then
    let (value, p) := readVarint r.bytes (r.genLineExcPos + 1)
    ({r with genLineExcPos := p, genLineExcNextIdx := (r.bytes.getD p 0).toNat}, value,
      if testBit r.bytes (r.base + origLineEqMaskOff) deltaIdx then value else origLine)
  else (r, genLine, origLine)

/-- `next_rare`, the source -/
def nextSource (r : WindowReader) (deltaIdx : Nat) (sourceIndex : Int) : WindowReader × Int :=
  if r.flags &&& flagHasSrcIdx ≠ 0 ∧ testBit r.bytes r.srcIdxMask deltaIdx = false then
    let (value, p) := readVarint r.bytes r.srcIdxExcPos
    ({r with srcIdxExcPos := p}, i32 (sourceIndex + value))
  else (r, sourceIndex)

def next (r : WindowReader) (state : SourceMapState) : WindowReader × SourceMapState :=
  let deltaIdx := r.deltaIdx
  let r := {r with deltaIdx := deltaIdx + 1}
  let genLine : Int := if testBit r.bytes (r.base + genLineMaskOff) deltaIdx then 1 else 0
  let (genCol, p) := readVarint r.bytes r.genColPos
  let r := {r with genColPos := p}
  let (origLine, p) :=
    if testBit r.bytes (r.base + origLineEqMaskOff) deltaIdx then (genLine, r.origLineExcPos)
    else readVarint r.bytes r.origLineExcPos
  let r := {r with origLineExcPos := p}
  let (origCol, p) :=
    if testBit r.bytes (r.base + origColEqMaskOff) deltaIdx then (genCol, r.origColExcPos)
    else readVarint r.bytes r.origColExcPos
  let r := {r with origColExcPos := p}
  let (r, genLine, origLine) := if r.flags ≠ 0 then r.nextLine deltaIdx genLine origLine else (r, genLine, origLine)
  let (r, sourceIndex) := if r.flags ≠ 0 then r.nextSource deltaIdx state.sourceIndex else (r, state.sourceIndex)
  (r,
    { generatedLine := if genLine ≠ 0 then i32 (state.generatedLine + genLine) else state.generatedLine
      generatedColumn := if genLine ≠ 0 then genCol else i32 (state.generatedColumn + genCol)
      sourceIndex
      originalLine := i32 (state.originalLine + origLine)
      originalColumn := i32 (state.originalColumn + origCol) })

end WindowReader

/-- `seed_window` -/
def seedWindow (blob : List UInt8) (syncIdx : Nat) (r : WindowReader) : SourceMapState × WindowReader :=
  ((syncEntry blob syncIdx).toState, r.parse (stream blob) (syncEntry blob syncIdx).byteOffset)

/-- The mappings behind a state, up to the end of the window. A window has at most 64. -/
def readWindow : Nat → WindowReader → SourceMapState → List SourceMapState
  | 0, _, _ => []
  | n + 1, r, state => if r.done then [] else (r.next state).2 :: readWindow n (r.next state).1 (r.next state).2

/-- All windows in order, as in `append_vlq_to` -/
def decodeWindows (blob : List UInt8) : List SourceMapState :=
  (List.range (syncCount blob)).flatMap fun syncIdx =>
    let (state, r) := seedWindow blob syncIdx .dangling
    state :: readWindow syncInterval r state

end Funbun.SourceMap.Internal
