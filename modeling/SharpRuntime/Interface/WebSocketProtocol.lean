import SharpRuntime.Model.ClientWebSocket
import SharpRuntime.Machine.Utf8

/-!
# The WebSocket protocol

What the other side makes of the bytes of a client.  A frame of a client is masked, has the shortest
of the three forms of its length, and sets no reserved bit (`parseFrame`); bytes are a sequence of
frames when frames follow each other up to the end (`Parses`).  The first data frame of a message
has its type, the other ones continue it, and the last one is final (`receive`).
-/

set_option autoImplicit false

namespace SharpRuntime.Interface.WebSocketProtocol

open Machine Model

structure Frame where
  fin : Bool
  opcode : ℕ
  payload : List UInt8
deriving DecidableEq

/-- A number of some octets, with the most significant one first, and what follows it. -/
def takeNumber (width : ℕ) (s : List UInt8) : Option (ℕ × List UInt8) :=
  if s.length < width then none
  else some (Printed.value 256 ((s.take width).map UInt8.toNat), s.drop width)

/-- The length of a payload.  A longer form is for the lengths only that have no shorter one. -/
def takeLength (len7 : ℕ) (s : List UInt8) : Option (ℕ × List UInt8) :=
  if len7 ≤ 125 then some (len7, s)
  else if len7 = 126 then
    (takeNumber 2 s).filter fun length => 125 < length.1
  else
    (takeNumber 8 s).filter fun length => 0xFFFF < length.1 ∧ length.1 < 2 ^ 63

/-- Every octet with the octet of the key that is next in turn. -/
def unmask (key payload : List UInt8) : List UInt8 :=
  payload.mapIdx fun i b => b ^^^ key.getD (i % 4) 0

def parseFrame : (s : List UInt8) → Option (Frame × List UInt8)
  | first :: second :: s =>
    if first &&& 0x70 ≠ 0 ∨ second &&& 0x80 = 0 then none
    else do
      let (length, s) ← takeLength (second &&& 0x7F).toNat s
      if s.length < 4 + length then none
      else
        some (⟨decide (first &&& 0x80 ≠ 0), (first &&& 0x0F).toNat,
          unmask (s.take 4) ((s.drop 4).take length)⟩, s.drop (4 + length))
  | _ => none

/-- The bytes are these frames, with nothing left over. -/
inductive Parses : (s : List UInt8) → List Frame → Prop where
  | nil : Parses [] []
  | cons {s rest : List UInt8} {f : Frame} {fs : List Frame} (head : parseFrame s = some (f, rest))
      (tail : Parses rest fs) : Parses s (f :: fs)

theorem Parses.unique {s : List UInt8} {fs fs' : List Frame} (h : Parses s fs) (h' : Parses s fs') :
    fs = fs' := by
  induction h generalizing fs' with
  | nil =>
    cases h' with
    | nil => rfl
    | cons head tail => cases head
  | cons head tail ih =>
    cases h' with
    | nil => cases head
    | cons head' tail' =>
      rw [head] at head'
      cases head'
      rw [ih tail']

/-- The type of a message. -/
inductive DataType where
  | text
  | binary
deriving DecidableEq

/-- What a message type is on the wire, where a message cannot be a close. -/
def wireType : WebSocketMessageType → Option DataType
  | .text => some .text
  | .binary => some .binary
  | .close => none

structure Message where
  type : DataType
  data : List UInt8
deriving DecidableEq

/-- The messages that are complete, and the one that is not. -/
structure Received where
  messages : List Message
  pending : Option Message
deriving DecidableEq

/-- A part of a message: the first one gives its type, and the last one completes it. -/
def Received.part (r : Received) (type : DataType) (data : List UInt8) (last : Bool) : Received :=
  let message := match r.pending with
    | none => ⟨type, data⟩
    | some m => ⟨m.type, m.data ++ data⟩
  if last then ⟨r.messages ++ [message], none⟩ else ⟨r.messages, some message⟩

/-- A frame begins a message when none is incomplete, and continues one when one is. -/
def Received.frame (r : Received) (f : Frame) : Option Received :=
  match f.opcode, r.pending with
  | 0, some m => some (r.part m.type f.payload f.fin)
  | 1, none => some (r.part .text f.payload f.fin)
  | 2, none => some (r.part .binary f.payload f.fin)
  | _, _ => none

def receive (fs : List Frame) : Option Received := fs.foldlM Received.frame ⟨[], none⟩

end SharpRuntime.Interface.WebSocketProtocol

/-!
# A WebSocket server

The frames of a server that conforms to the protocol: they are not masked, control frames stand
anywhere between the data frames, and a message of text is UTF-8 (`Conforms`).  What a client is
told of them comes in chunks (`Received.chunk`), up to what ends the receiving (`Ending`).
-/

namespace SharpRuntime.Interface.WebSocketProtocol

open Machine Model

/-- The length of a payload in the shortest of its three forms. -/
def lengthField (length : ℕ) : List UInt8 :=
  if length ≤ 125 then [UInt8.ofNat length]
  else if length ≤ 0xFFFF then 126 :: bigEndian 2 length
  else 127 :: bigEndian 8 length

def Frame.bytes (f : Frame) : List UInt8 :=
  UInt8.ofNat ((if f.fin then 0x80 else 0) + f.opcode) :: (lengthField f.payload.length ++ f.payload)

def framesBytes (fs : List Frame) : List UInt8 := fs.flatMap Frame.bytes

/-- A ping or a pong. -/
structure Frame.Heartbeat (f : Frame) : Prop where
  opcode : f.opcode = 0x9 ∨ f.opcode = 0xA
  fin : f.fin = true
  short : f.payload.length ≤ 125

def Frame.IsData (f : Frame) : Prop := f.opcode = 0x0 ∨ f.opcode = 0x1 ∨ f.opcode = 0x2

/-- The message that a frame completes, if any, is UTF-8 if it is text. -/
def TextValid (f : Frame) (r : Received) : Prop :=
  f.fin = true → ∀ m, r.messages.getLast? = some m → m.type = .text → utf8.WellFormed m.data

/-- Frames of a server that conforms, with no payload longer than `limit`: they take a receiver from
the messages `r` to the messages at the end. -/
inductive Conforms (limit : ℕ) : (r : Received) → List Frame → Received → Prop where
  | nil (r : Received) : Conforms limit r [] r
  | heartbeat {r r' : Received} {f : Frame} {fs : List Frame} (hf : f.Heartbeat)
      (tail : Conforms limit r fs r') : Conforms limit r (f :: fs) r'
  | data {r r₁ r' : Received} {f : Frame} {fs : List Frame} (hf : r.frame f = some r₁)
      (hlength : f.payload.length ≤ limit) (htext : TextValid f r₁)
      (tail : Conforms limit r₁ fs r') : Conforms limit r (f :: fs) r'

def CloseCode (code : ℕ) : Prop :=
  1000 ≤ code ∧ code ≤ 1003 ∨ 1007 ≤ code ∧ code ≤ 1014 ∨ 3000 ≤ code ∧ code ≤ 4999

/-- The payload of a Close frame, with the status and the reason that it gives. -/
inductive ClosePayload : List UInt8 → (status : Option ℕ) → (reason : Option (List UInt8)) → Prop where
  | empty : ClosePayload [] none none
  | status {code : ℕ} (hcode : CloseCode code) : ClosePayload (bigEndian 2 code) (some code) none
  | reason {code : ℕ} {reason : List UInt8} (hcode : CloseCode code) (hne : reason ≠ [])
      (htext : utf8.WellFormed reason) (hshort : reason.length ≤ 123) :
      ClosePayload (bigEndian 2 code ++ reason) (some code) (some reason)

/-- A part of a message. -/
structure Chunk where
  messageType : WebSocketMessageType
  data : List UInt8
  endOfMessage : Bool
deriving DecidableEq

def Received.chunk (r : Received) (k : Chunk) : Option Received :=
  match wireType k.messageType, r.pending with
  | none, _ => none
  | some type, none => some (r.part type k.data k.endOfMessage)
  | some type, some m => if type = m.type then some (r.part type k.data k.endOfMessage) else none

def assemble (ks : List Chunk) : Option Received := ks.foldlM Received.chunk ⟨[], none⟩

/-- What ends the receiving. -/
inductive Ended where
  | close (status : Option ℕ) (reason : Option (List UInt8))
  | fault (fault : WebSocketFault)
deriving DecidableEq

def BadHeader (first second : UInt8) : Prop :=
  first &&& 0x70 ≠ 0 ∨
  (first &&& 0x0F).toNat ∉ [0x0, 0x1, 0x2, 0x8, 0x9, 0xA] ∨
  second &&& 0x80 ≠ 0 ∨
  0x8 ≤ (first &&& 0x0F).toNat ∧ (first &&& 0x80 = 0 ∨ 125 < (second &&& 0x7F).toNat)

/-- What a client that has received `r` is told of bytes that do not go on with the conforming
frames: the end of the connection, a Close frame, a frame whose header does not conform, a data frame
out of order, or one that is too long for the client. -/
inductive Ending (limit : ℕ) (r : Received) : List UInt8 → Ended → Prop where
  | lost {message : String} :
      Ending limit r [] (.fault (.webSocket .connectionClosedPrematurely message))
  | close {payload rest : List UInt8} {status : Option ℕ} {reason : Option (List UInt8)}
      (hpayload : ClosePayload payload status reason) :
      Ending limit r (Frame.bytes ⟨true, 0x8, payload⟩ ++ rest) (.close status reason)
  | header {first second : UInt8} {rest : List UInt8} {message : String}
      (hbad : BadHeader first second) :
      Ending limit r (first :: second :: rest) (.fault (.webSocket .headerError message))
  | order {f : Frame} {rest : List UInt8} {message : String} (hf : f.IsData)
      (horder : r.frame f = none) (hlength : f.payload.length ≤ limit) :
      Ending limit r (f.bytes ++ rest) (.fault (.webSocket .faulted message))
  | long {f : Frame} {rest : List UInt8} {message : String} (hf : f.IsData)
      (hlength : limit < f.payload.length) (hsize : f.payload.length < 2 ^ 63) :
      Ending limit r (f.bytes ++ rest) (.fault (.webSocket .headerError message))

def IsPong (payload frame : List UInt8) : Prop := parseFrame frame = some (⟨true, 0xA, payload⟩, [])

def pings (fs : List Frame) : List (List UInt8) :=
  (fs.filter fun f => f.opcode == 0x9).map Frame.payload

end SharpRuntime.Interface.WebSocketProtocol
