import SharpRuntime.Analysis.WebSocketFrames

/-!
# The parts of messages that a client delivers

A client reads a frame when nothing is left of the last one, and delivers it in as many chunks as
the buffers of its calls need.  What was delivered and what is left make up the messages of the
frames that were read (`Follows`).  A call that takes what is left keeps this (`takeLeftover_step`),
and so does one that reads a data frame (`deliverFrame_step`).
-/

set_option autoImplicit false

namespace SharpRuntime.Analysis.WebSocketMessages

open Machine Model Model.ClientWebSocket
open Interface.WebSocketProtocol WebSocketServerFrames

/-- A call with a buffer that has room for at least one byte. -/
structure RecvCall where
  buffer : List UInt8
  offset : ℤ
  count : ℤ
  offset_nonneg : 0 ≤ offset
  count_pos : 1 ≤ count
  fits : offset + count ≤ buffer.length

namespace RecvCall

def receive (call : RecvCall) (maskingKey : ℕ → UInt32) (c : ClientWebSocket) (wire : Wire) :
    Receiving :=
  receiveAsync maskingKey call.buffer call.offset call.count c wire

def chunk (call : RecvCall) (buffer : List UInt8) (result : WebSocketReceiveResult) : Chunk :=
  ⟨result.messageType, (buffer.drop call.offset.toNat).take result.count, result.endOfMessage⟩

end RecvCall

/-- What calls have done: the chunks, what has ended the receiving, whether the call that it ended has
left its buffer as it was, and what the calls leave. -/
structure Receipt where
  chunks : List Chunk
  ended : Option Ended
  unwritten : Bool
  client : ClientWebSocket
  wire : Wire

/-- Calls, each of which completes before the next one begins, up to one that gives no chunk. -/
def receives (maskingKey : ℕ → UInt32) (c : ClientWebSocket) (wire : Wire) : List RecvCall → Receipt
  | [] => ⟨[], none, true, c, wire⟩
  | call :: calls =>
    let r := call.receive maskingKey c wire
    match r.result with
    | .error e => ⟨[], some (.fault e), r.buffer == call.buffer, r.client, r.wire⟩
    | .ok result =>
      if result.messageType = .close then
        ⟨[], some (.close result.closeStatus result.closeStatusDescription), r.buffer == call.buffer,
          r.client, r.wire⟩
      else
        let rest := receives maskingKey r.client r.wire calls
        { rest with chunks := call.chunk r.buffer result :: rest.chunks }

variable {r r' : Received}

theorem chunk_eq_some {k : Chunk} :
    r.chunk k = some r' ↔ ∃ type, wireType k.messageType = some type ∧
      (∀ m, r.pending = some m → type = m.type) ∧ r' = r.part type k.data k.endOfMessage := by
  unfold Received.chunk
  cases htype : wireType k.messageType with
  | none => simp
  | some type => grind

theorem part_pending {type : DataType} (hsame : ∀ m, r.pending = some m → type = m.type)
    (data : List UInt8) (last : Bool) :
    (r.part type data last).pending.isNone = last ∧
      ∀ m, (r.part type data last).pending = some m → type = m.type := by
  unfold Received.part
  cases last with
  | true => exact ⟨rfl, fun m hm => by cases hm⟩
  | false => grind

variable {d : Received}

variable {type : WebSocketMessageType}

theorem chunk_append {a b : List UInt8} {fin : Bool} (h : d.chunk ⟨type, a ++ b, fin⟩ = some r) :
    ∃ d', d.chunk ⟨type, a, false⟩ = some d' ∧ d'.chunk ⟨type, b, fin⟩ = some r := by
  obtain ⟨t, htype, hsame, rfl⟩ := chunk_eq_some.mp h
  refine ⟨d.part t a false, chunk_eq_some.mpr ⟨t, htype, hsame, rfl⟩,
    chunk_eq_some.mpr ⟨t, htype, (part_pending hsame a false).2, ?_⟩⟩
  unfold Received.part
  cases d.pending <;> simp

variable {f : Frame}

theorem frame_eq_some (h : r.frame f = some r') : ∃ type, r' = r.part type f.payload f.fin ∧
      ((f.opcode = 0 ∧ ∃ m, r.pending = some m ∧ m.type = type) ∨
        (f.opcode = 1 ∧ r.pending = none ∧ type = .text) ∨
        (f.opcode = 2 ∧ r.pending = none ∧ type = .binary)) := by
  unfold Received.frame at h
  split at h
  · grind
  · grind
  · grind
  · cases h

theorem isData_of_frame (h : r.frame f = some r') : f.IsData := by
  obtain ⟨type, -, hcases⟩ := frame_eq_some h
  rcases hcases with ⟨hopcode, -⟩ | ⟨hopcode, -⟩ | ⟨hopcode, -⟩
  · exact Or.inl hopcode
  · exact Or.inr (Or.inl hopcode)
  · exact Or.inr (Or.inr hopcode)

theorem drop_memcpy {buffer : List UInt8} {offset : ℕ} (h : offset ≤ buffer.length)
    (data : List UInt8) :
    ((memcpy buffer offset data).drop offset).take data.length = data := by grind [memcpy]

def leftoverChunks (c : ClientWebSocket) : List Chunk :=
  if c.recvLeftoverPos_ < c.recvLeftover_.length then
    [⟨c.recvLeftoverType_, c.recvLeftover_.drop c.recvLeftoverPos_, c.recvLeftoverFinal_⟩]
  else []

def leftoverLength (c : ClientWebSocket) : ℕ := c.recvLeftover_.length - c.recvLeftoverPos_

/-- The client has read the frames of the messages `r`, and has delivered the messages `d` of them. -/
structure Follows (c : ClientWebSocket) (d r : Received) : Prop where
  socket : c.socket_ = true
  state : c.state_ = .open_ ∨ c.state_ = .closeSent
  final : c.lastReceivedFrameWasFinal_ = r.pending.isNone
  type : ∀ m, r.pending = some m → wireType c.fragmentType_ = some m.type
  leftover : (leftoverChunks c).foldlM Received.chunk d = some r

variable {c : ClientWebSocket}

theorem Follows.delivered (h : Follows c d r)
    (hnone : ¬ c.recvLeftoverPos_ < c.recvLeftover_.length) : d = r := by
  have hleft := h.leftover
  rw [leftoverChunks, if_neg hnone] at hleft
  exact Option.some.inj hleft

variable (call : RecvCall) (maskingKey : ℕ → UInt32)

theorem receive_eq (wire : Wire)
    (hsocket : c.socket_ = true) (hstate : c.state_ = .open_ ∨ c.state_ = .closeSent) :
    call.receive maskingKey c wire =
      if c.recvLeftoverPos_ < c.recvLeftover_.length then
        takeLeftover call.buffer call.offset.toNat call.count.toNat c wire
      else receiveLoop maskingKey call.buffer call.offset.toNat call.count.toNat c wire := by
  have hnonneg := call.offset_nonneg
  have hpos := call.count_pos
  have hfits := call.fits
  have hchecks : receiveChecks call.buffer call.offset call.count c = .ok () := by
    have hmem : c.state_ ∈ [WebSocketState.open_, WebSocketState.closeSent] := by simpa using hstate
    rw [receiveChecks, validateWebSocketBuffer, if_neg (by omega), if_neg (by omega),
      throwIfNotConnected, if_pos hsocket, throwOnInvalidState, if_pos hmem]
    rfl
  rw [RecvCall.receive, receiveAsync, hchecks]

/-- What a call has given, if it has given a chunk. -/
structure Gives (call : RecvCall) (r : Receiving) (k : Chunk) : Prop where
  result : ∃ result, r.result = .ok result ∧ result.messageType ≠ .close ∧
    k = call.chunk r.buffer result

theorem ne_close_of_wireType {t : DataType} (h : wireType type = some t) : type ≠ .close := by
  rintro rfl
  cases h

variable {out : Receiving}

/-- Bytes left over from a frame are handed out as a chunk of its message. -/
theorem takeLeftover_step {wire : Wire}
    (h : Follows c d r) (hleft : c.recvLeftoverPos_ < c.recvLeftover_.length)
    (hout : takeLeftover call.buffer call.offset.toNat call.count.toNat c wire = out) :
    ∃ k d', Gives call out k ∧ d.chunk k = some d' ∧ Follows out.client d' r ∧ out.wire = wire ∧
      leftoverLength out.client < leftoverLength c := by
  subst hout
  have hpos := call.count_pos
  have hfits := call.fits
  have hoffset : call.offset.toNat ≤ call.buffer.length := by omega
  have hchunk := h.leftover
  rw [leftoverChunks, if_pos hleft] at hchunk
  simp only [List.foldlM_cons, List.foldlM_nil, bind_pure] at hchunk
  obtain ⟨t, htype, -, -⟩ := chunk_eq_some.mp hchunk
  obtain ⟨n, hn⟩ : ∃ n, min call.count.toNat (c.recvLeftover_.length - c.recvLeftoverPos_) = n :=
    ⟨_, rfl⟩
  have hlength : ((c.recvLeftover_.drop c.recvLeftoverPos_).take n).length = n := by
    rw [List.length_take, List.length_drop]
    omega
  have hwritten := drop_memcpy hoffset ((c.recvLeftover_.drop c.recvLeftoverPos_).take n)
  rw [hlength] at hwritten
  by_cases hdrained : c.recvLeftoverPos_ + n = c.recvLeftover_.length
  · have hwhole : (c.recvLeftover_.drop c.recvLeftoverPos_).take n =
        c.recvLeftover_.drop c.recvLeftoverPos_ := by
      rw [List.take_of_length_le (by rw [List.length_drop]; omega)]
    simp only [takeLeftover, hn, decide_eq_true hdrained, if_true, Bool.true_and]
    refine ⟨_, r, ⟨_, rfl, ne_close_of_wireType htype, rfl⟩, ?_, ⟨h.socket, h.state, h.final, h.type,
      rfl⟩, trivial, ?_⟩
    · rw [RecvCall.chunk, hwritten, hwhole]
      exact hchunk
    · simp only [leftoverLength, List.length_nil]
      omega
  · obtain ⟨d', hd', hrest⟩ := chunk_append (a := (c.recvLeftover_.drop c.recvLeftoverPos_).take n)
      (b := (c.recvLeftover_.drop c.recvLeftoverPos_).drop n) (by rwa [List.take_append_drop])
    simp only [takeLeftover, hn, decide_eq_false hdrained, Bool.false_and, Bool.false_eq_true, if_false]
    refine ⟨_, d', ⟨_, rfl, ne_close_of_wireType htype, rfl⟩, ?_, ⟨h.socket, h.state, h.final, h.type,
      ?_⟩, trivial, ?_⟩
    · rw [RecvCall.chunk, hwritten]
      exact hd'
    · rw [leftoverChunks]
      dsimp only
      rw [if_pos (by omega), ← List.drop_drop, List.foldlM_cons, hrest]
      rfl
    · simp only [leftoverLength]
      omega

variable {r₁ : Received}

theorem deliverFrame_eq (h : Follows c r r)
    (hframe : r.frame f = some r₁) (htext : TextValid f r₁) (buffer : List UInt8) (offset count : ℕ)
    (wire : Wire) :
    ∃ type t, wireType type = some t ∧ (∀ m, r.pending = some m → t = m.type) ∧
      r₁ = r.part t f.payload f.fin ∧
      deliverFrame buffer offset count ⟨UInt8.ofNat f.opcode, f.fin, f.payload⟩ c wire =
        if f.payload.length ≤ count then
          ⟨.ok ⟨f.payload.length, type, f.fin, none, none⟩, memcpy buffer offset f.payload,
            { c with fragmentType_ := type, lastReceivedFrameWasFinal_ := f.fin }, wire⟩
        else
          { result := .ok ⟨count, type, false, none, none⟩
            buffer := memcpy buffer offset (f.payload.take count)
            client := { c with
              fragmentType_ := type
              lastReceivedFrameWasFinal_ := f.fin
              recvLeftover_ := f.payload.drop count
              recvLeftoverPos_ := 0
              recvLeftoverType_ := type
              recvLeftoverFinal_ := f.fin }
            wire := wire } := by
  obtain ⟨t, rfl, hcases⟩ := frame_eq_some hframe
  have hfinal := h.final
  rcases hcases with ⟨hopcode, m, hpending, rfl⟩ | ⟨hopcode, hpending, rfl⟩ | ⟨hopcode, hpending, rfl⟩
  · rw [hpending, Option.isNone_some] at hfinal
    refine ⟨c.fragmentType_, m.type, h.type m hpending, ?_, rfl, ?_⟩
    · intro m' hm'
      rw [hpending] at hm'
      cases hm'
      rfl
    · rw [hopcode]
      simp [deliverFrame, orderFault, frameType, hfinal]
  · rw [hpending, Option.isNone_none] at hfinal
    have hvalid : f.fin = true → isValidUtf8 f.payload = true := by
      intro hfin
      refine (isValidUtf8_iff _).mpr (htext hfin ⟨.text, f.payload⟩ ?_ rfl)
      rw [Received.part, hpending, hfin]
      simp
    refine ⟨.text, .text, rfl, by simp [hpending], rfl, ?_⟩
    rw [hopcode]
    cases hfin : f.fin with
    | false => simp [deliverFrame, orderFault, frameType, hfinal]
    | true => simp [deliverFrame, orderFault, frameType, hfinal, hvalid hfin]
  · rw [hpending, Option.isNone_none] at hfinal
    refine ⟨.binary, .binary, rfl, by simp [hpending], rfl, ?_⟩
    rw [hopcode]
    simp [deliverFrame, orderFault, frameType, hfinal]

/-- A frame is handed out as a chunk of its message, and the rest is kept. -/
theorem deliverFrame_step
    (h : Follows c r r) (hleft : ¬ c.recvLeftoverPos_ < c.recvLeftover_.length)
    (hframe : r.frame f = some r₁) (htext : TextValid f r₁) (wire : Wire)
    (hout : deliverFrame call.buffer call.offset.toNat call.count.toNat
      ⟨UInt8.ofNat f.opcode, f.fin, f.payload⟩ c wire = out) :
    ∃ k d', Gives call out k ∧ r.chunk k = some d' ∧ Follows out.client d' r₁ ∧ out.wire = wire ∧
      leftoverLength out.client ≤ f.payload.length := by
  have hpos := call.count_pos
  have hfits := call.fits
  have hoffset : call.offset.toNat ≤ call.buffer.length := by omega
  obtain ⟨type, t, htype, hsame, rfl, heq⟩ := deliverFrame_eq h hframe htext call.buffer
    call.offset.toNat call.count.toNat wire
  obtain ⟨hfinal, hpending⟩ := part_pending hsame f.payload f.fin
  have hkept : ∀ m, (r.part t f.payload f.fin).pending = some m → wireType type = some m.type := by
    intro m hm
    rw [htype, hpending m hm]
  by_cases hroom : f.payload.length ≤ call.count.toNat
  · rw [heq, if_pos hroom] at hout
    subst hout
    refine ⟨_, r.part t f.payload f.fin, ⟨_, rfl, ne_close_of_wireType htype, rfl⟩, ?_,
      ⟨h.socket, h.state, hfinal.symm, hkept, ?_⟩, rfl, ?_⟩
    · rw [RecvCall.chunk, drop_memcpy hoffset]
      exact chunk_eq_some.mpr ⟨t, htype, hsame, rfl⟩
    · rw [leftoverChunks, if_neg hleft]
      rfl
    · simp only [leftoverLength]
      omega
  · rw [heq, if_neg hroom] at hout
    subst hout
    have hlength : (f.payload.take call.count.toNat).length = call.count.toNat := by
      rw [List.length_take]
      omega
    have hwritten := drop_memcpy hoffset (f.payload.take call.count.toNat)
    rw [hlength] at hwritten
    have hwhole : r.chunk ⟨type, f.payload.take call.count.toNat ++ f.payload.drop call.count.toNat,
        f.fin⟩ = some (r.part t f.payload f.fin) := by
      rw [List.take_append_drop]
      exact chunk_eq_some.mpr ⟨t, htype, hsame, rfl⟩
    obtain ⟨d', hd', hrest⟩ := chunk_append hwhole
    refine ⟨_, d', ⟨_, rfl, ne_close_of_wireType htype, rfl⟩, ?_,
      ⟨h.socket, h.state, hfinal.symm, hkept, ?_⟩, rfl, ?_⟩
    · rw [RecvCall.chunk, hwritten]
      exact hd'
    · grind [leftoverChunks]
    · simp only [leftoverLength, List.length_drop]
      omega

variable {incoming rest : List UInt8}

theorem receiveLoop_of_frame
    {frame : RawFrame} (hsocket : c.socket_ = true) (h : readFrame c incoming = (.ok frame, rest))
    (buffer : List UInt8) (offset count : ℕ) (sent : List (List UInt8)) :
    receiveLoop maskingKey buffer offset count c ⟨incoming, sent⟩ =
      if frame.opcode = 0x9 then
        receiveLoop maskingKey buffer offset count c
          ⟨rest, sent ++ [frameBytes 0xA frame.payload true (maskingKey sent.length)]⟩
      else if frame.opcode = 0xA then receiveLoop maskingKey buffer offset count c ⟨rest, sent⟩
      else if frame.opcode = 0x8 then receiveClose buffer frame c ⟨rest, sent⟩
      else deliverFrame buffer offset count frame c ⟨rest, sent⟩ := by
  rw [receiveLoop]
  split
  · rename_i hframe
    rw [h] at hframe
    cases hframe
  · rename_i hframe
    rw [h] at hframe
    cases hframe
    have hpong : sendFrame c 0xA frame.payload true (maskingKey sent.length) =
        .ok (frameBytes 0xA frame.payload true (maskingKey sent.length)) := by
      refine WebSocketFrames.sendFrame_ok hsocket ?_ _ _ _
      have hle := length_payload_le h
      unfold WebSocketFrames.Short kMaxFramePayloadBytes intcsMax at *
      omega
    simp only [hpong]

theorem receiveLoop_of_fault {e : WebSocketFault} (h : readFrame c incoming = (.error e, rest))
    (buffer : List UInt8) (offset count : ℕ) (sent : List (List UInt8)) :
    receiveLoop maskingKey buffer offset count c ⟨incoming, sent⟩ =
      ⟨.error e, buffer, c, ⟨rest, sent⟩⟩ := by
  rw [receiveLoop]
  split
  · rename_i hframe
    rw [h] at hframe
    cases hframe
    rfl
  · rename_i hframe
    rw [h] at hframe
    cases hframe

end SharpRuntime.Analysis.WebSocketMessages
