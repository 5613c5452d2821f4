import Funbun.Library.Bytes

/-! Frames of HTTP/2 on the wire. -/
namespace Funbun.Http2
open Library

def maxWindowSize : Nat := 2 ^ 31 - 1

def maxStreamId : Nat := 2 ^ 31 - 1

def maxFrameSize : Nat := 0x00ffffff

def defaultWindowSize : Nat := 65535

def defaultMaxFrameSize : Nat := 16384

/-- The type of a frame, also one that has no name -/
inductive FrameType where
  | data | headers | priority | rstStream | settings | pushPromise | ping | goaway | windowUpdate | continuation
  | altsvc | origin
  | other (byte : UInt8) (h : byte = 0x0b ∨ 0x0c < byte)
  deriving DecidableEq

def FrameType.ofByte (byte : UInt8) : FrameType :=
  if h : byte = 0x0b ∨ 0x0c < byte then .other byte h
  else match byte with
  | 0x00 => .data
  | 0x01 => .headers
  | 0x02 => .priority
  | 0x03 => .rstStream
  | 0x04 => .settings
  | 0x05 => .pushPromise
  | 0x06 => .ping
  | 0x07 => .goaway
  | 0x08 => .windowUpdate
  | 0x09 => .continuation
  | 0x0a => .altsvc
  | _ => .origin

def FrameType.toByte : FrameType → UInt8
  | .data => 0x00
  | .headers => 0x01
  | .priority => 0x02
  | .rstStream => 0x03
  | .settings => 0x04
  | .pushPromise => 0x05
  | .ping => 0x06
  | .goaway => 0x07
  | .windowUpdate => 0x08
  | .continuation => 0x09
  | .altsvc => 0x0a
  | .origin => 0x0c
  | .other byte _ => byte

def Flags.endStream : UInt8 := 0x1

def Flags.endHeaders : UInt8 := 0x4

def Flags.padded : UInt8 := 0x8

def Flags.priority : UInt8 := 0x20

def Flags.ack : UInt8 := 0x1

/-- `flags & flag != 0` -/
def has (flags flag : UInt8) : Bool := flags &&& flag != 0

structure Frame where
  type : FrameType
  flags : UInt8
  streamId : Nat
  payload : List UInt8
  deriving DecidableEq

def Frame.length (frame : Frame) : Nat := frame.payload.length

/-- `UInt31WithReserved::uint31` -/
def uint31 (value : Nat) : Nat := value % 2 ^ 31

/-- `FrameHeader::BYTE_SIZE` -/
def frameHeaderSize : Nat := 9

/-- A frame as `write_frame` puts it in the buffer. -/
def Frame.encode (frame : Frame) : List UInt8 :=
  beBytes 3 frame.length ++ [frame.type.toByte, frame.flags] ++ beBytes 4 frame.streamId ++ frame.payload

/-- What `parse_frames` finds at the front of the bytes. -/
inductive Parsed where
  | incomplete
  | tooLong
  | frame (frame : Frame) (rest : List UInt8)

/-- `FrameHeader::decode`, and the payload. -/
def parseFrame : List UInt8 → Parsed
  | l₀ :: l₁ :: l₂ :: type :: flags :: s₀ :: s₁ :: s₂ :: s₃ :: bytes =>
    let length := ofBeBytes [l₀, l₁, l₂]
    if length > defaultMaxFrameSize then .tooLong
    else if bytes.length < length then .incomplete
    else .frame ⟨.ofByte type, flags, uint31 (ofBeBytes [s₀, s₁, s₂, s₃]), bytes.take length⟩ (bytes.drop length)
  | _ => .incomplete

/-- `strip_padding` -/
def stripPadding : List UInt8 → Option (List UInt8)
  | [] => none
  | pad :: payload => if pad.toNat ≥ payload.length + 1 then none else some (payload.take (payload.length - pad.toNat))

/-- `StreamPriority::BYTE_SIZE` -/
def streamPrioritySize : Nat := 5

/-- The fragment of a HEADERS frame, without its padding and its priority. -/
def headersFragment (flags : UInt8) (payload : List UInt8) : Option (List UInt8) :=
  match if has flags Flags.padded then stripPadding payload else some payload with
  | none => none
  | some fragment =>
    if has flags Flags.priority then
      if fragment.length < streamPrioritySize then none else some (fragment.drop streamPrioritySize)
    else some fragment

end Funbun.Http2
