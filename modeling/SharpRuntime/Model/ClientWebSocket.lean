import SharpRuntime.Machine.Bytes
import SharpRuntime.Model.Exception

/-!
# `ClientWebSocket`

`modules/net-websockets/src/System/Net/WebSockets/ClientWebSocket.cpp`, under the source's names.  A
socket is the bytes that go through it, and the members that the operations share are one record,
with `socket_` telling whether there is a socket.  A random masking key is an argument.  `::send`
sends all the bytes it is given.  The frames of the keep-alive thread and cancellation are left out.
Bare line numbers are of `ClientWebSocket.cpp`.
-/

set_option autoImplicit false

namespace SharpRuntime.Model

open Machine

/-- SOURCE: WebSocketState.hpp:13-21 -/
inductive WebSocketState where
  | none
  | connecting
  | open_
  | closeSent
  | closeReceived
  | closed
  | aborted
deriving DecidableEq

/-- SOURCE: WebSocketMessageType.hpp:13-17 -/
inductive WebSocketMessageType where
  | text
  | binary
  | close
deriving DecidableEq

/-- The errors that the modelled members report.
SOURCE: WebSocketError.hpp:13-24 -/
inductive WebSocketError where
  | faulted
  | headerError
  | connectionClosedPrematurely
  | invalidState
deriving DecidableEq

/-- What a member throws; `diverged` is a call that the language leaves undefined. -/
inductive WebSocketFault where
  | diverged
  | webSocket (error : WebSocketError) (message : String)
  | argumentOutOfRange (paramName : String)
  | objectDisposed (objectName : String)
  | invalidOperation (message : String)
deriving DecidableEq

/-- SOURCE: ClientWebSocket.hpp:48-91 -/
structure ClientWebSocket where
  socket_ : Bool
  state_ : WebSocketState
  connectStarted_ : Bool
  closeStatus_ : Option ℕ
  closeStatusDescription_ : Option (List UInt8)
  sendContinuation_ : Bool
  fragmentType_ : WebSocketMessageType
  recvLeftover_ : List UInt8
  recvLeftoverPos_ : ℕ
  recvLeftoverType_ : WebSocketMessageType
  recvLeftoverFinal_ : Bool
  lastReceivedFrameWasFinal_ : Bool
deriving DecidableEq

namespace ClientWebSocket

/-- The members of a new instance. -/
def initial : ClientWebSocket where
  socket_ := false
  state_ := .none
  connectStarted_ := false
  closeStatus_ := none
  closeStatusDescription_ := none
  sendContinuation_ := false
  fragmentType_ := .binary
  recvLeftover_ := []
  recvLeftoverPos_ := 0
  recvLeftoverType_ := .binary
  recvLeftoverFinal_ := true
  lastReceivedFrameWasFinal_ := true

def objectName : String := "System.Net.WebSockets.ClientWebSocket"

/-- SOURCE: 350-361 -/
def throwIfNotConnected (c : ClientWebSocket) : Except WebSocketFault Unit :=
  if c.socket_ then .ok ()
  else if c.connectStarted_ ∧ c.state_ ≠ .connecting then .error (.objectDisposed objectName)
  else .error (.invalidOperation "The WebSocket is not connected.")

/-- SOURCE: WebSocket.hpp:126-131 -/
def throwOnInvalidState (state : WebSocketState) (validStates : List WebSocketState) :
    Except WebSocketFault Unit :=
  if state ∈ validStates then .ok ()
  else .error (.webSocket .invalidState "The WebSocket is in an invalid state for this operation.")

/-- SOURCE: 363-380 -/
def socketForIo (c : ClientWebSocket) : Except WebSocketFault Unit :=
  if c.socket_ then .ok ()
  else do
    throwIfNotConnected c
    .error (.objectDisposed objectName)

/-- SOURCE: 827-832 -/
def validateWebSocketBuffer (buffer : List UInt8) (offset count : ℤ) : Except WebSocketFault Unit :=
  if offset < 0 ∨ (buffer.length : ℤ) < offset then .error (.argumentOutOfRange "offset")
  else if count < 0 ∨ (buffer.length : ℤ) - offset < count then
    .error (.argumentOutOfRange "count")
  else .ok ()

/-- SOURCE: 775-781 -/
def maskBytes (maskingKey : UInt32) : List UInt8 :=
  [(maskingKey >>> 24 &&& 0xFF).toUInt8, (maskingKey >>> 16 &&& 0xFF).toUInt8,
    (maskingKey >>> 8 &&& 0xFF).toUInt8, (maskingKey &&& 0xFF).toUInt8]

/-- The length of the payload in a frame.
SOURCE: 783-792 -/
def lengthBytes (len : ℕ) : List UInt8 :=
  if len ≤ 125 then [UInt8.ofNat (0x80 ||| len)]
  else if len ≤ 0xFFFF then
    [UInt8.ofNat (0x80 ||| 126), UInt8.ofNat (len >>> 8 &&& 0xFF), UInt8.ofNat (len &&& 0xFF)]
  else
    UInt8.ofNat (0x80 ||| 127) :: (List.range 8).reverse.map fun i =>
      UInt8.ofNat (len >>> (i * 8) &&& 0xFF)

/-- The bytes of a frame.
SOURCE: 772-800 -/
def frameBytes (opcode : UInt8) (data : List UInt8) (fin : Bool) (maskingKey : UInt32) : List UInt8 :=
  (((if fin then 0x80 else 0x00) ||| (opcode &&& 0x0F)) :: lengthBytes data.length) ++
    maskBytes maskingKey ++
    data.mapIdx fun i b => b ^^^ (maskBytes maskingKey).getD (i % 4) 0

/-- `Socket::Send` of a vector: what its size, cast to `int`, has `::send` take.  A negative one
reaches past the vector.
SOURCE: Socket.cpp:220-226, 724-741 -/
def send (buffer : List UInt8) : Except WebSocketFault (List UInt8) :=
  if toIntcs buffer.length < 0 then .error .diverged
  else .ok (buffer.take (toIntcs buffer.length).toNat)

/-- What is sent.
SOURCE: 765-803 -/
def sendFrame (c : ClientWebSocket) (opcode : UInt8) (data : List UInt8) (fin : Bool)
    (maskingKey : UInt32) : Except WebSocketFault (List UInt8) := do
  socketForIo c
  send (frameBytes opcode data fin maskingKey)

/-- The opcode of a data frame.
SOURCE: 1081-1086 -/
def dataOpcode (c : ClientWebSocket) (messageType : WebSocketMessageType) : UInt8 :=
  if c.sendContinuation_ then 0x0 else if messageType = .text then 0x1 else 0x2

/-- What is sent, and the members then.  A call that throws sends nothing and leaves the members as
they were.
SOURCE: 1064-1095 -/
def sendAsync (c : ClientWebSocket) (buffer : List UInt8) (offset count : ℤ)
    (messageType : WebSocketMessageType) (endOfMessage : Bool) (maskingKey : UInt32) :
    Except WebSocketFault (List UInt8 × ClientWebSocket) := do
  validateWebSocketBuffer buffer offset count
  let payload := (buffer.drop offset.toNat).take count.toNat
  throwIfNotConnected c
  throwOnInvalidState c.state_ [.open_, .closeReceived]
  let sent ← sendFrame c (c.dataOpcode messageType) payload endOfMessage maskingKey
  pure (sent, { c with sendContinuation_ := !endOfMessage })

/-- How many bytes come after a first byte, and the least number that takes so many.
SOURCE: 880-883 -/
def utf8Lead (c0 : UInt8) : Option (ℕ × ℕ) :=
  if c0 &&& 0xE0 = 0xC0 then some (1, 0x80)
  else if c0 &&& 0xF0 = 0xE0 then some (2, 0x800)
  else if c0 &&& 0xF8 = 0xF0 then some (3, 0x10000)
  else none

/-- SOURCE: 886-890 -/
def utf8Tails : (cp : ℕ) → List UInt8 → Option ℕ
  | cp, [] => some cp
  | cp, cb :: s =>
    if cb &&& 0xC0 ≠ 0x80 then none else utf8Tails (cp <<< 6 ||| (cb &&& 0x3F).toNat) s

/-- SOURCE: 873-895 -/
def isValidUtf8 : List UInt8 → Bool
  | [] => true
  | c0 :: s =>
    if c0 < 0x80 then isValidUtf8 s
    else
      match utf8Lead c0 with
      | none => false
      | some (extra, minCp) =>
        if s.length < extra then false
        else
          match utf8Tails (c0.toNat &&& 0xFF >>> (extra + 2)) (s.take extra) with
          | none => false
          | some cp =>
            if cp < minCp ∨ 0x10FFFF < cp ∨ 0xD800 ≤ cp ∧ cp ≤ 0xDFFF then false
            else isValidUtf8 (s.drop extra)
termination_by s => s.length
decreasing_by
  · simp
  · simp only [List.length_drop, List.length_cons]
    omega

/-- SOURCE: 916-920 -/
def isValidReceivedCloseCode (code : ℕ) : Bool :=
  decide (1000 ≤ code ∧ code ≤ 1003) || decide (1007 ≤ code ∧ code ≤ 1014) ||
    decide (3000 ≤ code ∧ code ≤ 4999)

/-- The status and the description of a Close frame.
SOURCE: 931-965 -/
def parseClosePayload (payload : List UInt8) :
    Except WebSocketFault (Option ℕ × Option (List UInt8)) :=
  match payload with
  | [] => .ok (none, none)
  | [_] =>
    .error (.webSocket .faulted "A WebSocket close payload must be empty or at least two bytes.")
  | high :: low :: reason =>
    let code := high.toNat <<< 8 ||| low.toNat
    if !isValidReceivedCloseCode code then
      .error (.webSocket .faulted
        "The WebSocket close frame carries a status code that RFC 6455 does not permit on the wire.")
    else if reason.isEmpty then .ok (some code, none)
    else if !isValidUtf8 reason then
      .error (.webSocket .faulted "The WebSocket close reason is not valid UTF-8.")
    else .ok (some code, some reason)

/-- SOURCE: ClientWebSocket.hpp:127-131 -/
structure RawFrame where
  opcode : UInt8
  fin : Bool
  payload : List UInt8

/-- The next bytes from the socket, and what is left there.  A connection that the other side has
closed leaves nothing.
SOURCE: 807-820 -/
def readExact (n : ℕ) (incoming : List UInt8) :
    Except WebSocketFault (List UInt8) × List UInt8 :=
  if incoming.length < n then
    (.error (.webSocket .connectionClosedPrematurely "The remote endpoint closed the connection."), [])
  else (.ok (incoming.take n), incoming.drop n)

/-- SOURCE: 847 -/
def isControlOpcode (opcode : UInt8) : Bool := opcode &&& 0x08 ≠ 0

/-- SOURCE: 853-856 -/
def isDefinedOpcode (opcode : UInt8) : Bool :=
  opcode == 0x0 || opcode == 0x1 || opcode == 0x2 || opcode == 0x8 || opcode == 0x9 || opcode == 0xA

/-- The fault in the two bytes that a frame begins with.
SOURCE: 977-1016 -/
def headerFault (first second : UInt8) : Option WebSocketFault :=
  let fin := decide (first &&& 0x80 ≠ 0)
  let opcode := first &&& 0x0F
  let len := (second &&& 0x7F).toNat
  if first &&& 0x70 ≠ 0 then
    some (.webSocket .headerError
      "The WebSocket frame sets a reserved bit, but no extension was negotiated.")
  else if !isDefinedOpcode opcode then
    some (.webSocket .headerError "The WebSocket frame uses a reserved opcode.")
  else if second &&& 0x80 ≠ 0 then
    some (.webSocket .headerError "The server sent a masked frame, which RFC 6455 forbids.")
  else if isControlOpcode opcode && !fin then
    some (.webSocket .headerError "A WebSocket control frame must not be fragmented.")
  else if isControlOpcode opcode && decide (125 < len) then
    some (.webSocket .headerError "A WebSocket control frame payload must not exceed 125 bytes.")
  else none

/-- The length of a payload, by the seven bits of the second byte.
SOURCE: 1018-1027 -/
def readLength (len7 : ℕ) (incoming : List UInt8) : Except WebSocketFault ℕ × List UInt8 :=
  if len7 = 126 then
    match readExact 2 incoming with
    | (.error e, incoming) => (.error e, incoming)
    | (.ok ext, incoming) =>
      (.ok ((ext.getD 0 0).toNat <<< 8 ||| (ext.getD 1 0).toNat), incoming)
  else if len7 = 127 then
    match readExact 8 incoming with
    | (.error e, incoming) => (.error e, incoming)
    | (.ok ext, incoming) => (.ok (ext.foldl (fun len b => len <<< 8 ||| b.toNat) 0), incoming)
  else (.ok len7, incoming)

/-- SOURCE: 1037 -/
def kMaxFramePayloadBytes : ℕ := 256 * 1024 * 1024

/-- The next frame, and what is left of the incoming bytes.
SOURCE: 969-1050 -/
def readFrame (c : ClientWebSocket) (incoming : List UInt8) :
    Except WebSocketFault RawFrame × List UInt8 :=
  match socketForIo c with
  | .error e => (.error e, incoming)
  | .ok _ =>
    match readExact 2 incoming with
    | (.error e, incoming) => (.error e, incoming)
    | (.ok header, incoming) =>
      let first := header.getD 0 0
      let second := header.getD 1 0
      match headerFault first second with
      | some e => (.error e, incoming)
      | none =>
        match readLength (second &&& 0x7F).toNat incoming with
        | (.error e, incoming) => (.error e, incoming)
        | (.ok len, incoming) =>
          if kMaxFramePayloadBytes < len then
            (.error (.webSocket .headerError
              "The WebSocket frame payload length exceeds the maximum allowed size."), incoming)
          else
            match readExact len incoming with
            | (.error e, incoming) => (.error e, incoming)
            | (.ok payload, incoming) =>
              (.ok ⟨first &&& 0x0F, decide (first &&& 0x80 ≠ 0), payload⟩, incoming)

theorem length_readExact_le (n : ℕ) (incoming : List UInt8) :
    (readExact n incoming).2.length ≤ incoming.length := by grind [readExact]

theorem length_readLength_le (len7 : ℕ) (incoming : List UInt8) :
    (readLength len7 incoming).2.length ≤ incoming.length := by
  grind [readLength, length_readExact_le]

theorem length_readFrame_lt {c : ClientWebSocket} {incoming rest : List UInt8} {frame : RawFrame}
    (h : readFrame c incoming = (.ok frame, rest)) : rest.length < incoming.length := by
  unfold readFrame at h
  split at h
  · cases h
  · split at h
    · cases h
    · rename_i header s hheader
      have hlt : s.length < incoming.length := by grind [readExact]
      dsimp only at h
      split at h
      · cases h
      · split at h
        · cases h
        · rename_i len t hlength
          have hle := length_readLength_le (header.getD 1 0 &&& 0x7F).toNat s
          rw [hlength] at hle
          split at h
          · cases h
          · grind [length_readExact_le]

theorem length_payload_le {c : ClientWebSocket} {incoming rest : List UInt8} {frame : RawFrame}
    (h : readFrame c incoming = (.ok frame, rest)) :
    frame.payload.length ≤ kMaxFramePayloadBytes := by
  unfold readFrame at h
  split at h
  · cases h
  · split at h
    · cases h
    · dsimp only at h
      split at h
      · cases h
      · split at h
        · cases h
        · split at h
          · cases h
          · grind [readExact]

/-- The bytes that are to come in, and the frames that were sent. -/
structure Wire where
  incoming : List UInt8
  sent : List (List UInt8)
deriving DecidableEq

/-- SOURCE: WebSocketReceiveResult.hpp:20-26 -/
structure WebSocketReceiveResult where
  count : ℕ
  messageType : WebSocketMessageType
  endOfMessage : Bool
  closeStatus : Option ℕ
  closeStatusDescription : Option (List UInt8)
deriving DecidableEq

/-- What a call of `receiveAsync` leaves. -/
structure Receiving where
  result : Except WebSocketFault WebSocketReceiveResult
  buffer : List UInt8
  client : ClientWebSocket
  wire : Wire

/-- A buffer with some of its bytes written over. -/
def memcpy (buffer : List UInt8) (offset : ℕ) (data : List UInt8) : List UInt8 :=
  buffer.take offset ++ data ++ buffer.drop (offset + data.length)

/-- What is left of the last frame, or as much of it as there is room for.
SOURCE: 1114-1133 -/
def takeLeftover (buffer : List UInt8) (offset count : ℕ) (c : ClientWebSocket) (wire : Wire) :
    Receiving :=
  let n := min count (c.recvLeftover_.length - c.recvLeftoverPos_)
  let drained := decide (c.recvLeftoverPos_ + n = c.recvLeftover_.length)
  { result := .ok ⟨n, c.recvLeftoverType_, drained && c.recvLeftoverFinal_, none, none⟩
    buffer := memcpy buffer offset ((c.recvLeftover_.drop c.recvLeftoverPos_).take n)
    client :=
      if drained then { c with recvLeftover_ := [], recvLeftoverPos_ := 0 }
      else { c with recvLeftoverPos_ := c.recvLeftoverPos_ + n }
    wire := wire }

/-- The members after a Close frame, in one critical section.
SOURCE: 1160-1164 -/
def publishReceivedClose (c : ClientWebSocket) (status : Option ℕ)
    (description : Option (List UInt8)) : ClientWebSocket :=
  { c with
    closeStatus_ := status
    closeStatusDescription_ := description
    state_ := if c.state_ = .closeSent then .closed else .closeReceived }

/-- A Close frame.
SOURCE: 1151-1167 -/
def receiveClose (buffer : List UInt8) (frame : RawFrame) (c : ClientWebSocket) (wire : Wire) :
    Receiving :=
  match parseClosePayload frame.payload with
  | .error e => ⟨.error e, buffer, c, wire⟩
  | .ok (status, description) =>
    ⟨.ok ⟨0, .close, true, status, description⟩, buffer, c.publishReceivedClose status description,
      wire⟩

/-- The fault in the order of data frames.
SOURCE: 1173-1184 -/
def orderFault (c : ClientWebSocket) (opcode : UInt8) : Option WebSocketFault :=
  if opcode = 0x0 then
    if c.lastReceivedFrameWasFinal_ then
      some (.webSocket .faulted
        "The WebSocket received a continuation frame from a previous final message.")
    else none
  else if !c.lastReceivedFrameWasFinal_ then
    some (.webSocket .faulted
      "The WebSocket expected a continuation frame after having received a previous non-final frame.")
  else none

/-- The type of a data frame.
SOURCE: 1186-1187 -/
def frameType (c : ClientWebSocket) (opcode : UInt8) : WebSocketMessageType :=
  if opcode = 0x0 then c.fragmentType_ else if opcode = 0x1 then .text else .binary

/-- A data frame.
SOURCE: 1168-1227 -/
def deliverFrame (buffer : List UInt8) (offset count : ℕ) (frame : RawFrame) (c : ClientWebSocket)
    (wire : Wire) : Receiving :=
  match orderFault c frame.opcode with
  | some e => ⟨.error e, buffer, c, wire⟩
  | none =>
    let type := c.frameType frame.opcode
    let c := { c with
      fragmentType_ := if frame.opcode = 0x0 then c.fragmentType_ else type
      lastReceivedFrameWasFinal_ := frame.fin }
    if frame.fin && frame.opcode == 0x1 && !isValidUtf8 frame.payload then
      ⟨.error (.webSocket .faulted "The WebSocket text message is not valid UTF-8."), buffer, c, wire⟩
    else if frame.payload.length ≤ count then
      ⟨.ok ⟨frame.payload.length, type, frame.fin, none, none⟩, memcpy buffer offset frame.payload, c,
        wire⟩
    else
      { result := .ok ⟨count, type, false, none, none⟩
        buffer := memcpy buffer offset (frame.payload.take count)
        client := { c with
          recvLeftover_ := frame.payload.drop count
          recvLeftoverPos_ := 0
          recvLeftoverType_ := type
          recvLeftoverFinal_ := frame.fin }
        wire := wire }

/-- The frames up to one that is delivered.
SOURCE: 1135-1229 -/
def receiveLoop (maskingKey : ℕ → UInt32) (buffer : List UInt8) (offset count : ℕ)
    (c : ClientWebSocket) (wire : Wire) : Receiving :=
  match _hframe : readFrame c wire.incoming with
  | (.error e, incoming) => ⟨.error e, buffer, c, ⟨incoming, wire.sent⟩⟩
  | (.ok frame, incoming) =>
    if frame.opcode = 0x9 then
      match sendFrame c 0xA frame.payload true (maskingKey wire.sent.length) with
      | .error e => ⟨.error e, buffer, c, ⟨incoming, wire.sent⟩⟩
      | .ok pong => receiveLoop maskingKey buffer offset count c ⟨incoming, wire.sent ++ [pong]⟩
    else if frame.opcode = 0xA then
      receiveLoop maskingKey buffer offset count c ⟨incoming, wire.sent⟩
    else if frame.opcode = 0x8 then receiveClose buffer frame c ⟨incoming, wire.sent⟩
    else deliverFrame buffer offset count frame c ⟨incoming, wire.sent⟩
termination_by wire.incoming.length
decreasing_by
  · exact length_readFrame_lt _hframe
  · exact length_readFrame_lt _hframe

/-- The checks before anything is received.
SOURCE: 1100, 1111-1112 -/
def receiveChecks (buffer : List UInt8) (offset count : ℤ) (c : ClientWebSocket) :
    Except WebSocketFault Unit := do
  validateWebSocketBuffer buffer offset count
  throwIfNotConnected c
  throwOnInvalidState c.state_ [.open_, .closeSent]

/-- The masking keys are those of the frames that are sent, by their number.
SOURCE: 1097-1239 -/
def receiveAsync (maskingKey : ℕ → UInt32) (buffer : List UInt8) (offset count : ℤ)
    (c : ClientWebSocket) (wire : Wire) : Receiving :=
  match receiveChecks buffer offset count c with
  | .error e => ⟨.error e, buffer, c, wire⟩
  | .ok _ =>
    if c.recvLeftoverPos_ < c.recvLeftover_.length then
      takeLeftover buffer offset.toNat count.toNat c wire
    else receiveLoop maskingKey buffer offset.toNat count.toNat c wire

/-- What a call that closes leaves. -/
structure Closing where
  result : Except WebSocketFault Unit
  client : ClientWebSocket
  wire : Wire

/-- SOURCE: 1052-1062 -/
def sendCloseFrame (c : ClientWebSocket) (closeStatus : UInt16)
    (statusDescription : Option (List UInt8)) (maskingKey : UInt32) :
    Except WebSocketFault (List UInt8) :=
  sendFrame c 0x8
    ([(closeStatus >>> 8 &&& 0xFF).toUInt8, (closeStatus &&& 0xFF).toUInt8] ++
      statusDescription.getD []) true maskingKey

/-- SOURCE: 1241-1259 -/
def closeOutputAsync (closeStatus : UInt16) (statusDescription : Option (List UInt8))
    (maskingKey : UInt32) (c : ClientWebSocket) (wire : Wire) : Closing :=
  let sending : Except WebSocketFault (List UInt8) := do
    throwIfNotConnected c
    throwOnInvalidState c.state_ [.open_, .closeReceived]
    sendCloseFrame c closeStatus statusDescription maskingKey
  match sending with
  | .error e => ⟨.error e, c, wire⟩
  | .ok sent =>
    ⟨.ok (), { c with state_ := if c.state_ = .closeReceived then .closed else .closeSent },
      ⟨wire.incoming, wire.sent ++ [sent]⟩⟩

/-- The frames up to a Close frame; every other one is dropped.
SOURCE: 1288-1306 -/
def awaitClose (c : ClientWebSocket) (wire : Wire) : Closing :=
  match _hframe : readFrame c wire.incoming with
  | (.error e, incoming) => ⟨.error e, c, ⟨incoming, wire.sent⟩⟩
  | (.ok frame, incoming) =>
    if frame.opcode = 0x8 then
      match parseClosePayload frame.payload with
      | .error e => ⟨.error e, c, ⟨incoming, wire.sent⟩⟩
      | .ok (status, description) =>
        ⟨.ok (), { c with
          closeStatus_ := status
          closeStatusDescription_ := description
          state_ := .closed }, ⟨incoming, wire.sent⟩⟩
    else awaitClose c ⟨incoming, wire.sent⟩
termination_by wire.incoming.length
decreasing_by exact length_readFrame_lt _hframe

/-- SOURCE: 1261-1313 -/
def closeAsync (closeStatus : UInt16) (statusDescription : Option (List UInt8))
    (maskingKey : UInt32) (c : ClientWebSocket) (wire : Wire) : Closing :=
  match throwIfNotConnected c with
  | .error e => ⟨.error e, c, wire⟩
  | .ok _ =>
    if c.state_ = .open_ then
      match sendCloseFrame c closeStatus statusDescription maskingKey with
      | .error e => ⟨.error e, c, wire⟩
      | .ok sent =>
        awaitClose { c with state_ := .closeSent } ⟨wire.incoming, wire.sent ++ [sent]⟩
    else if c.state_ = .closeSent then awaitClose c wire
    else ⟨.ok (), c, wire⟩

/-- SOURCE: 1325-1352 -/
def dispose (c : ClientWebSocket) : ClientWebSocket :=
  { c with
    socket_ := false
    state_ := if c.state_ = .aborted then .aborted else .closed }

/-- SOURCE: 1315-1323 -/
def abort (c : ClientWebSocket) : ClientWebSocket :=
  dispose { c with
    state_ := if c.state_ ≠ .aborted ∧ c.state_ ≠ .closed then .aborted else c.state_ }

end ClientWebSocket

end SharpRuntime.Model
