import Funbun.WebSocket.Receive

/-! What a server sends, and what a client is to make of it.

A stream has messages and control frames. A message is in fragments, with control frames between them. `Means` says which
streams are valid, and what is told of them. The loop of `handle_data` is watched for what its state does not have:
whether a subtraction of `consume` goes below zero. -/
namespace Funbun.WebSocket
open Library Strings
variable {σ : Type}

/-! ### Frames -/

/-- A frame without a mask, with the shortest form of its length -/
def serverFrame (final compressed : Bool) (opcode : Opcode) (payload : List UInt8) : List UInt8 :=
  ((if final then 0x80 else 0) ||| (if compressed then 0x40 else 0) ||| UInt8.ofNat opcode.toNat) ::
    WebsocketHeader.packLength payload.length :: (lengthBytes payload.length ++ payload)

inductive ControlType where
  | ping | pong
  deriving DecidableEq

def ControlType.opcode : ControlType → Opcode
  | ping => .ping
  | pong => .pong

structure Control where
  kind : ControlType
  payload : List UInt8

inductive MessageType where
  | text | binary
  deriving DecidableEq

def MessageType.opcode : MessageType → Opcode
  | text => .text
  | binary => .binary

structure Message where
  kind : MessageType
  compressed : Bool
  first : List UInt8
  /-- The other fragments, each with the control frames in front of it -/
  more : List (List Control × List UInt8)

/-- What is between two messages, or a message -/
inductive Element where
  | control (frame : Control)
  | message (message : Message)

def Control.bytes (c : Control) : List UInt8 := serverFrame true false c.kind.opcode c.payload

def continuations : List (List Control × List UInt8) → List UInt8
  | [] => []
  | (controls, payload) :: more =>
    controls.flatMap Control.bytes ++ (serverFrame more.isEmpty false .continue_ payload ++ continuations more)

namespace Message

def bytes (m : Message) : List UInt8 := serverFrame m.more.isEmpty m.compressed m.kind.opcode m.first ++ continuations m.more

def payload (m : Message) : List UInt8 := m.first ++ m.more.flatMap Prod.snd

def controls (m : Message) : List Control := m.more.flatMap Prod.fst

end Message

def Element.bytes : Element → List UInt8
  | control c => c.bytes
  | message m => m.bytes

/-! ### What is told -/

/-- A message, a ping or a pong as it is to be told -/
inductive Delivery where
  | text (text : List Char)
  | bytes (data : List UInt8) (op : Opcode)

/-- The event tells it. -/
inductive Event.Tells : Event → Delivery → Prop
  | text {str : ZigString} {text : List Char} (h : str.Has text) : Tells (.didReceiveText str) (.text text)
  | bytes (data : List UInt8) (op : Opcode) : Tells (.didReceiveBytes data op) (.bytes data op)

/-- simdutf, as it is documented -/
def Codec.Documented (codec : Codec σ) : Prop :=
  ∀ text, codec.convertUtf8ToUtf16le (utf8 text) = some (Utf16.encode text)

def Control.delivery (c : Control) : Delivery := .bytes c.payload c.kind.opcode

/-- The fragments in one piece, which are decompressed in one piece -/
inductive Message.Content (codec : Codec σ) (m : Message) : Option σ → List UInt8 → Option σ → Prop
  | plain (h : m.compressed = false) (deflate : Option σ) : Content codec m deflate m.payload deflate
  | inflated {deflate deflate' : σ} {data : List UInt8} (h : m.compressed = true)
      (hdecompress : codec.decompress deflate m.payload = (.ok data, deflate')) : Content codec m (some deflate) data (some deflate')

/-- A text is in UTF-8. -/
inductive MessageType.Means : MessageType → List UInt8 → Delivery → Prop
  | text (text : List Char) : Means .text (utf8 text) (.text text)
  | binary (data : List UInt8) : Means .binary data (.bytes data .binary)

/-- A valid stream, with what is to be told of it: a control frame where it comes, and a message where it ends -/
inductive Means (codec : Codec σ) : Option σ → List Element → List Delivery → Option σ → Prop
  | nil (deflate : Option σ) : Means codec deflate [] [] deflate
  | control {deflate deflate' : Option σ} {stream : List Element} {deliveries : List Delivery} {c : Control}
      (hc : c.payload.length ≤ 125) (h : Means codec deflate stream deliveries deflate') :
      Means codec deflate (.control c :: stream) (c.delivery :: deliveries) deflate'
  | message {deflate deflate' deflate'' : Option σ} {stream : List Element} {deliveries : List Delivery} {m : Message}
      {data : List UInt8} {delivery : Delivery} (hsize : m.payload.length ≤ maxReceiveMessageLength)
      (hcontrols : ∀ c ∈ m.controls, c.payload.length ≤ 125) (hcontent : m.Content codec deflate data deflate')
      (hmeans : m.kind.Means data delivery) (h : Means codec deflate' stream deliveries deflate'') :
      Means codec deflate (.message m :: stream) (m.controls.map Control.delivery ++ delivery :: deliveries) deflate''

def Delivery.ping : Delivery → Option (List UInt8)
  | bytes data .ping => some data
  | _ => none

/-- Whatever mask it draws, the pong has the payload of the ping. -/
def Answers (pong : Mask → List UInt8) (ping : List UInt8) : Prop :=
  ∀ mask, decodeFrame (pong mask) = some (.pong, ping, [])

/-! ### The loop is watched -/

namespace Connection

/-- The second subtraction of `consume`, which is behind the comparison. Asked of every call, also where `consume` returns
in front of it. -/
def underflows (c : Connection σ) (data : List UInt8) (leftInFragment : Nat) : Bool :=
  decide (data.length ≤ leftInFragment ∧ leftInFragment - data.length < c.receivePendingChunkLen)

end Connection

/-- An empty message calls `consume` from its header. -/
def underflowsAt (s : Locals × Connection σ) (data : List UInt8) : Bool :=
  match s.1.receiveState with
  | .needHeader => s.2.underflows [] 0
  | .needBody => s.2.underflows (data.take (min s.1.receiveBodyRemain data.length)) s.1.receiveBodyRemain
  | _ => false

structure Watched (σ : Type) where
  loop : Locals × Connection σ
  underflow : Bool

section
variable (codec : Codec σ)

def watchedTurn (w : Watched σ) (data : List UInt8) : Progress (Watched σ) UInt8 :=
  (turn codec w.loop data).map fun s => ⟨s, w.underflow || underflowsAt w.loop data⟩

/-- `handle_data_loop` -/
def Receiver.watch (ws : Receiver σ) (data : List UInt8) : Progress (Watched σ) UInt8 :=
  finish (watchedTurn codec) (fun w => turnsLeft w.loop) ⟨ws.load, false⟩ data

theorem watchedTurn_loop (w : Watched σ) (data : List UInt8) :
    (watchedTurn codec w data).map Watched.loop = turn codec w.loop data := by
  unfold watchedTurn
  cases turn codec w.loop data <;> rfl

/-- The loop that is watched is the loop. -/
theorem Receiver.watch_loop (ws : Receiver σ) (data : List UInt8) :
    (ws.watch codec data).map Watched.loop = finish (turn codec) turnsLeft ws.load data :=
  finish_map (watchedTurn_loop codec) _ data

end

end Funbun.WebSocket
