import Funbun.Library.Bytes

/-! The two bytes that every frame begins with. -/
namespace Funbun.WebSocket

inductive Opcode where
  | continue_ | text | binary | res3 | res4 | res5 | res6 | res7
  | close | ping | pong | resB | resC | resD | resE | resF
  deriving DecidableEq

namespace Opcode

def toNat : Opcode → Nat
  | continue_ => 0x0
  | text => 0x1
  | binary => 0x2
  | res3 => 0x3
  | res4 => 0x4
  | res5 => 0x5
  | res6 => 0x6
  | res7 => 0x7
  | close => 0x8
  | ping => 0x9
  | pong => 0xA
  | resB => 0xB
  | resC => 0xC
  | resD => 0xD
  | resE => 0xE
  | resF => 0xF

def isControl (op : Opcode) : Bool := op.toNat &&& 0x8 != 0

def fromRaw (n : UInt8) : Opcode :=
  match (n &&& 0xF).toNat with
  | 0x0 => continue_
  | 0x1 => text
  | 0x2 => binary
  | 0x3 => res3
  | 0x4 => res4
  | 0x5 => res5
  | 0x6 => res6
  | 0x7 => res7
  | 0x8 => close
  | 0x9 => ping
  | 0xA => pong
  | 0xB => resB
  | 0xC => resC
  | 0xD => resD
  | 0xE => resE
  | _ => resF

end Opcode

/-- From the lowest bit: seven of length, the mask bit, four of opcode, two reserved, compressed and final. -/
structure WebsocketHeader where
  bits : UInt16
  deriving DecidableEq

namespace WebsocketHeader

def lenMask : UInt16 := 0b0111_1111
def opcodeMask : UInt16 := 0b1111
def rsvMask : UInt16 := 0b11

def len (h : WebsocketHeader) : UInt8 := (h.bits &&& lenMask).toUInt8
def mask (h : WebsocketHeader) : Bool := h.bits >>> 7 &&& 1 != 0
def opcode (h : WebsocketHeader) : Opcode := .fromRaw (h.bits >>> 8 &&& opcodeMask).toUInt8
def rsv (h : WebsocketHeader) : UInt8 := (h.bits >>> 12 &&& rsvMask).toUInt8
def compressed (h : WebsocketHeader) : Bool := h.bits >>> 14 &&& 1 != 0
def final (h : WebsocketHeader) : Bool := h.bits >>> 15 &&& 1 != 0

def setLen (h : WebsocketHeader) (v : UInt8) : WebsocketHeader := ⟨h.bits &&& ~~~lenMask ||| (v.toUInt16 &&& lenMask)⟩
def setMask (h : WebsocketHeader) (v : Bool) : WebsocketHeader := ⟨h.bits &&& ~~~((1 : UInt16) <<< 7) ||| v.toUInt16 <<< 7⟩

def setOpcode (h : WebsocketHeader) (v : Opcode) : WebsocketHeader :=
  ⟨h.bits &&& ~~~(opcodeMask <<< 8) ||| (UInt16.ofNat v.toNat &&& opcodeMask) <<< 8⟩

def setCompressed (h : WebsocketHeader) (v : Bool) : WebsocketHeader :=
  ⟨h.bits &&& ~~~((1 : UInt16) <<< 14) ||| v.toUInt16 <<< 14⟩

def setFinal (h : WebsocketHeader) (v : Bool) : WebsocketHeader := ⟨h.bits &&& ~~~((1 : UInt16) <<< 15) ||| v.toUInt16 <<< 15⟩

/-- Highest byte first -/
def slice (h : WebsocketHeader) : List UInt8 := [(h.bits >>> 8).toUInt8, h.bits.toUInt8]

def fromSlice (b₀ b₁ : UInt8) : WebsocketHeader := ⟨b₀.toUInt16 <<< 8 ||| b₁.toUInt16⟩

def packLength (length : Nat) : UInt8 :=
  if length ≤ 125 then UInt8.ofNat length else if length ≤ 0xFFFF then 126 else 127

def lengthByteCount (byteLength : Nat) : Nat := if byteLength ≤ 125 then 0 else if byteLength ≤ 0xFFFF then 2 else 8

def frameSize (byteLength : Nat) : Nat := 2 + byteLength + lengthByteCount byteLength

def frameSizeIncludingMask (byteLength : Nat) : Nat := frameSize byteLength + 4

end WebsocketHeader

end Funbun.WebSocket
