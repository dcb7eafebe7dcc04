import SharpRuntime.Analysis.WebSocketMessages

/-!
# Reassembly over a sequence of calls

A call goes over the pings and the pongs to the next data frame, or to what ends the frames
(`receive_step`).  Over a sequence of calls the chunks make up the messages of the frames that were
read, however the frames and the buffers divide them (`messages_received`).
-/

set_option autoImplicit false

namespace SharpRuntime.Analysis.WebSocketReassembly

open Machine Model Model.ClientWebSocket
open Interface.WebSocketProtocol WebSocketServerFrames WebSocketMessages
open WebSocketFrames

variable {f : Frame}

theorem readable_of_heartbeat (hf : f.Heartbeat) : Readable f where
  opcode := by
    obtain h | h := hf.opcode <;> rw [h] <;> decide
  control _ := ⟨hf.fin, hf.short⟩
  size := by
    have hshort := hf.short
    omega

theorem isPong_frameBytes {payload : List UInt8} (h : payload.length ≤ 125) (maskingKey : UInt32) :
    IsPong payload (frameBytes 0xA payload true maskingKey) := by
  have hparse := parseFrame_frameBytes 0xA true maskingKey
    (show payload.length < 2 ^ 63 by omega) []
  rwa [List.append_nil] at hparse

theorem framesBytes_cons (f : Frame) (fs : List Frame) (tail : List UInt8) :
    framesBytes (f :: fs) ++ tail = f.bytes ++ (framesBytes fs ++ tail) := by
  rw [framesBytes, List.flatMap_cons, List.append_assoc]
  rfl

variable {c : ClientWebSocket}

variable (maskingKey : ℕ → UInt32)

theorem receiveLoop_heartbeat (hsocket : c.socket_ = true) (hf : f.Heartbeat) (rest : List UInt8)
    (sent : List (List UInt8)) (buffer : List UInt8) (offset count : ℕ) :
    ∃ pongs, List.Forall₂ IsPong (pings [f]) pongs ∧
      receiveLoop maskingKey buffer offset count c ⟨f.bytes ++ rest, sent⟩ =
        receiveLoop maskingKey buffer offset count c ⟨rest, sent ++ pongs⟩ := by
  have hshort := hf.short
  have hread := readFrame_bytes hsocket (readable_of_heartbeat hf)
    (show f.payload.length ≤ kMaxFramePayloadBytes by unfold kMaxFramePayloadBytes; omega) rest
  rw [receiveLoop_of_frame maskingKey hsocket hread]
  dsimp only
  obtain hopcode | hopcode := hf.opcode
  · refine ⟨[frameBytes 0xA f.payload true (maskingKey sent.length)], ?_, ?_⟩
    · have hpings : pings [f] = [f.payload] := by simp [pings, hopcode]
      rw [hpings]
      exact .cons (isPong_frameBytes hshort _) .nil
    · rw [hopcode, if_pos (show UInt8.ofNat 9 = 9 from rfl)]
  · refine ⟨[], ?_, ?_⟩
    · have hpings : pings [f] = [] := by simp [pings, hopcode]
      rw [hpings]
      exact .nil
    · rw [hopcode, if_neg (by decide), if_pos (show UInt8.ofNat 10 = 10 from rfl), List.append_nil]

theorem pings_append (fs gs : List Frame) : pings (fs ++ gs) = pings fs ++ pings gs := by
  rw [pings, List.filter_append, List.map_append]
  rfl

theorem pings_data (hf : f.IsData) : pings [f] = [] := by
  obtain h | h | h := hf <;> simp [pings, h]

theorem readable_of_data (hf : f.IsData) (hsize : f.payload.length < 2 ^ 63) : Readable f where
  opcode := by
    obtain h | h | h := hf <;> rw [h] <;> decide
  control hle := by
    obtain h | h | h := hf <;> omega
  size := hsize

theorem receiveLoop_data (hsocket : c.socket_ = true) (hf : f.IsData)
    (hlength : f.payload.length ≤ kMaxFramePayloadBytes)
    (rest : List UInt8) (sent : List (List UInt8)) (buffer : List UInt8) (offset count : ℕ) :
    receiveLoop maskingKey buffer offset count c ⟨f.bytes ++ rest, sent⟩ =
      deliverFrame buffer offset count ⟨UInt8.ofNat f.opcode, f.fin, f.payload⟩ c ⟨rest, sent⟩ := by
  have hsize : f.payload.length < 2 ^ 63 := by
    unfold kMaxFramePayloadBytes at hlength
    omega
  have hread := readFrame_bytes hsocket (readable_of_data hf hsize) hlength rest
  have hopcode : UInt8.ofNat f.opcode ≠ 0x9 ∧ UInt8.ofNat f.opcode ≠ 0xA ∧
      UInt8.ofNat f.opcode ≠ 0x8 := by
    obtain h | h | h := hf <;> rw [h] <;> decide
  rw [receiveLoop_of_frame maskingKey hsocket hread, if_neg hopcode.1, if_neg hopcode.2.1,
    if_neg hopcode.2.2]

variable {d r : Received}

theorem orderFault_of_none (h : Follows c d r) (hf : f.IsData) (horder : r.frame f = none) :
    ∃ message, orderFault c (UInt8.ofNat f.opcode) = some (.webSocket .faulted message) := by
  have hfinal := h.final
  unfold Received.frame at horder
  cases hpending : r.pending with
  | none =>
    rw [hpending, Option.isNone_none] at hfinal
    rw [hpending] at horder
    obtain hopcode | hopcode | hopcode := hf
    · rw [orderFault, hopcode, if_pos (show UInt8.ofNat 0 = 0x0 from rfl), if_pos hfinal]
      exact ⟨_, rfl⟩
    · rw [hopcode] at horder
      cases horder
    · rw [hopcode] at horder
      cases horder
  | some m =>
    rw [hpending, Option.isNone_some] at hfinal
    rw [hpending] at horder
    obtain hopcode | hopcode | hopcode := hf
    · rw [hopcode] at horder
      cases horder
    · rw [orderFault, hopcode, if_neg (by decide), hfinal, if_pos (by rfl)]
      exact ⟨_, rfl⟩
    · rw [orderFault, hopcode, if_neg (by decide), hfinal, if_pos (by rfl)]
      exact ⟨_, rfl⟩

variable {tail : List UInt8} {e : Ended}

theorem receiveLoop_ending (h : Follows c r r) (htail : Ending kMaxFramePayloadBytes r tail e)
    (sent : List (List UInt8)) (buffer : List UInt8) (offset count : ℕ) :
    (∃ status reason rest, Ending kMaxFramePayloadBytes r tail (.close status reason) ∧
      receiveLoop maskingKey buffer offset count c ⟨tail, sent⟩ =
        ⟨.ok ⟨0, .close, true, status, reason⟩, buffer, c.publishReceivedClose status reason,
          ⟨rest, sent⟩⟩) ∨
    ∃ fault rest, Ending kMaxFramePayloadBytes r tail (.fault fault) ∧
      receiveLoop maskingKey buffer offset count c ⟨tail, sent⟩ =
        ⟨.error fault, buffer, c, ⟨rest, sent⟩⟩ := by
  have hsocket := h.socket
  cases htail with
  | lost =>
    exact Or.inr ⟨_, [], .lost, receiveLoop_of_fault maskingKey (readFrame_nil hsocket) ..⟩
  | @close payload rest status reason hpayload =>
    obtain ⟨hparse, hshort⟩ := parseClosePayload_eq hpayload
    have hreadable : Readable ⟨true, 0x8, payload⟩ :=
      ⟨show 0x8 ∈ [0x0, 0x1, 0x2, 0x8, 0x9, 0xA] by decide, fun _ => ⟨rfl, hshort⟩,
       show payload.length < 2 ^ 63 by omega⟩
    have hread := readFrame_bytes hsocket hreadable
      (show payload.length ≤ kMaxFramePayloadBytes by unfold kMaxFramePayloadBytes; omega) rest
    refine Or.inl ⟨status, reason, rest, .close hpayload, ?_⟩
    rw [receiveLoop_of_frame maskingKey hsocket hread]
    dsimp only
    rw [if_neg (by decide), if_neg (by decide), if_pos (by rfl), receiveClose]
    simp only [hparse]
  | @header first second rest _ hbad =>
    obtain ⟨message, hread⟩ := readFrame_bad hsocket hbad rest
    exact Or.inr ⟨_, rest, .header hbad, receiveLoop_of_fault maskingKey hread ..⟩
  | @order f rest _ hf horder hlength =>
    obtain ⟨message, hfault⟩ := orderFault_of_none h hf horder
    refine Or.inr ⟨.webSocket .faulted message, rest, .order hf horder hlength, ?_⟩
    rw [receiveLoop_data maskingKey hsocket hf hlength, deliverFrame, hfault]
  | @long f rest _ hf hlength hsize =>
    have hread := readFrame_header hsocket (readable_of_data hf hsize) rest
    rw [if_pos hlength] at hread
    exact Or.inr ⟨_, _, .long hf hlength hsize, receiveLoop_of_fault maskingKey hread ..⟩

/-- The client has read up to the frames `fs`, which take the messages `r` to `r'` and are followed by
the bytes `tail`. -/
structure Reading (r' : Received) (tail : List UInt8) (c : ClientWebSocket) (wire : Wire)
    (d r : Received) (fs : List Frame) : Prop where
  follows : Follows c d r
  incoming : wire.incoming = framesBytes fs ++ tail
  frames : Conforms kMaxFramePayloadBytes r fs r'

def work (c : ClientWebSocket) (fs : List Frame) : ℕ :=
  leftoverLength c + (fs.map fun f => f.payload.length + 1).sum

variable {r' : Received} {fs : List Frame}

theorem receiveLoop_frames (hsocket : c.socket_ = true) (hfs : Conforms kMaxFramePayloadBytes r fs r')
    (tail : List UInt8) (sent : List (List UInt8)) (buffer : List UInt8) (offset count : ℕ) :
    (∃ pongs, r' = r ∧ List.Forall₂ IsPong (pings fs) pongs ∧
      receiveLoop maskingKey buffer offset count c ⟨framesBytes fs ++ tail, sent⟩ =
        receiveLoop maskingKey buffer offset count c ⟨tail, sent ++ pongs⟩) ∨
    ∃ fs₁ f fs₂ r₁ pongs, fs = fs₁ ++ f :: fs₂ ∧ Conforms kMaxFramePayloadBytes r fs₁ r ∧
      r.frame f = some r₁ ∧ f.payload.length ≤ kMaxFramePayloadBytes ∧ TextValid f r₁ ∧
      Conforms kMaxFramePayloadBytes r₁ fs₂ r' ∧ List.Forall₂ IsPong (pings fs₁) pongs ∧
      receiveLoop maskingKey buffer offset count c ⟨framesBytes fs ++ tail, sent⟩ =
        deliverFrame buffer offset count ⟨UInt8.ofNat f.opcode, f.fin, f.payload⟩ c
          ⟨framesBytes fs₂ ++ tail, sent ++ pongs⟩ := by
  induction hfs generalizing sent with
  | nil r =>
    refine Or.inl ⟨[], rfl, .nil, ?_⟩
    rw [List.append_nil]
    rfl
  | @heartbeat r r' f fs hf hrest ih =>
    obtain ⟨pongs, hpongs, hloop⟩ := receiveLoop_heartbeat maskingKey hsocket hf
      (framesBytes fs ++ tail) sent buffer offset count
    have happend : ∀ {gs : List Frame} {more : List (List UInt8)},
        List.Forall₂ IsPong (pings gs) more →
          List.Forall₂ IsPong (pings (f :: gs)) (pongs ++ more) := by
      intro gs more hmore
      rw [show f :: gs = [f] ++ gs from rfl, pings_append]
      exact List.rel_append hpongs hmore
    rw [framesBytes_cons, hloop]
    obtain ⟨more, heq, hmore, hrun⟩ | ⟨fs₁, g, fs₂, r₁, more, hfs, hfs₁, hg, hlength, htext, hfs₂,
      hmore, hrun⟩ := ih (sent ++ pongs)
    · refine Or.inl ⟨pongs ++ more, heq, happend hmore, ?_⟩
      rw [hrun, List.append_assoc]
    · refine Or.inr ⟨f :: fs₁, g, fs₂, r₁, pongs ++ more, by rw [hfs]; rfl, .heartbeat hf hfs₁, hg,
        hlength, htext, hfs₂, happend hmore, ?_⟩
      rw [hrun, List.append_assoc]
  | @data r r₁ r' f fs hf hlength htext hrest ih =>
    refine Or.inr ⟨[], f, fs, r₁, [], rfl, .nil r, hf, hlength, htext, hrest, .nil, ?_⟩
    rw [framesBytes_cons, receiveLoop_data maskingKey hsocket (isData_of_frame hf) hlength,
      List.append_nil]

theorem conforms_append {limit : ℕ} {r₁ r₂ : Received} {gs : List Frame}
    (hfs : Conforms limit r fs r₁) (hgs : Conforms limit r₁ gs r₂) : Conforms limit r (fs ++ gs) r₂ := by
  induction hfs with
  | nil => exact hgs
  | heartbeat hf _ ih => exact .heartbeat hf (ih hgs)
  | data hf hlength htext _ ih => exact .data hf hlength htext (ih hgs)

/-- What a call does that gives a chunk. -/
structure Advances (r' : Received) (tail : List UInt8) (call : RecvCall) (c : ClientWebSocket)
    (wire : Wire) (d r : Received) (fs : List Frame) (out : Receiving) : Prop where
  chunk : ∃ k d' r₁ fs₁ fs₂ pongs, Gives call out k ∧ d.chunk k = some d' ∧ fs = fs₁ ++ fs₂ ∧
    Conforms kMaxFramePayloadBytes r fs₁ r₁ ∧ Reading r' tail out.client out.wire d' r₁ fs₂ ∧
    out.wire.sent = wire.sent ++ pongs ∧ List.Forall₂ IsPong (pings fs₁) pongs ∧
    work out.client fs₂ < work c fs

/-- What a call does after the frames. -/
structure Finishes (r' : Received) (tail : List UInt8) (call : RecvCall) (c : ClientWebSocket)
    (wire : Wire) (d : Received) (fs : List Frame) (out : Receiving) : Prop where
  delivered : d = r'
  nothing : leftoverChunks c = []
  pongs : ∃ pongs, out.wire.sent = wire.sent ++ pongs ∧ List.Forall₂ IsPong (pings fs) pongs
  buffer : out.buffer = call.buffer
  ended : (∃ status reason, Ending kMaxFramePayloadBytes r' tail (.close status reason) ∧
      out.result = .ok ⟨0, .close, true, status, reason⟩ ∧
      out.client = c.publishReceivedClose status reason) ∨
    ∃ fault, Ending kMaxFramePayloadBytes r' tail (.fault fault) ∧ out.result = .error fault ∧
      out.client = c

variable {wire : Wire}

/-- **A call gives the next chunk, or what ends the frames.** -/
theorem receive_step (htail : Ending kMaxFramePayloadBytes r' tail e) (call : RecvCall)
    (h : Reading r' tail c wire d r fs) :
    Advances r' tail call c wire d r fs (call.receive maskingKey c wire) ∨
      Finishes r' tail call c wire d fs (call.receive maskingKey c wire) := by
  have hfollows := h.follows
  obtain ⟨incoming, sent⟩ := wire
  obtain rfl : incoming = framesBytes fs ++ tail := h.incoming
  rw [receive_eq call maskingKey _ hfollows.socket hfollows.state]
  by_cases hleft : c.recvLeftoverPos_ < c.recvLeftover_.length
  · obtain ⟨k, d', hgives, hk, hafter, hwire, hless⟩ := takeLeftover_step call hfollows hleft
      (Eq.refl (takeLeftover call.buffer call.offset.toNat call.count.toNat c
        ⟨framesBytes fs ++ tail, sent⟩))
    rw [if_pos hleft]
    refine Or.inl ⟨k, d', r, [], fs, [], hgives, hk, rfl, .nil r, ⟨hafter, ?_, h.frames⟩, ?_, .nil, ?_⟩
    · rw [hwire]
    · rw [hwire, List.append_nil]
    · unfold work
      omega
  · obtain rfl := hfollows.delivered hleft
    rw [if_neg hleft]
    obtain ⟨pongs, rfl, hpongs, hloop⟩ | ⟨fs₁, f, fs₂, r₁, pongs, rfl, hfs₁, hf, hlength, htext, hfs₂,
      hpongs, hloop⟩ := receiveLoop_frames maskingKey hfollows.socket h.frames tail sent call.buffer
        call.offset.toNat call.count.toNat
    · right
      have hnothing : leftoverChunks c = [] := by rw [leftoverChunks, if_neg hleft]
      rw [hloop]
      obtain ⟨status, reason, rest, hending, hend⟩ | ⟨fault, rest, hending, hend⟩ :=
        receiveLoop_ending maskingKey hfollows htail (sent ++ pongs) call.buffer call.offset.toNat
          call.count.toNat
      · rw [hend]
        exact ⟨rfl, hnothing, ⟨pongs, rfl, hpongs⟩, rfl, Or.inl ⟨status, reason, hending, rfl, rfl⟩⟩
      · rw [hend]
        exact ⟨rfl, hnothing, ⟨pongs, rfl, hpongs⟩, rfl, Or.inr ⟨fault, hending, rfl, rfl⟩⟩
    · obtain ⟨k, d', hgives, hk, hafter, hwire, hless⟩ := deliverFrame_step call hfollows hleft hf htext
        ⟨framesBytes fs₂ ++ tail, sent ++ pongs⟩ rfl
      rw [hloop]
      refine Or.inl ⟨k, d', r₁, fs₁ ++ [f], fs₂, pongs, hgives, hk, by simp,
        conforms_append hfs₁ (.data hf hlength htext (.nil r₁)), ⟨hafter, ?_, hfs₂⟩, ?_, ?_, ?_⟩
      · rw [hwire]
      · rw [hwire]
      · rw [pings_append, pings_data (isData_of_frame hf), List.append_nil]
        exact hpongs
      · simp only [work, List.map_append, List.map_cons, List.sum_append, List.sum_cons]
        omega

theorem receive_closed (hsocket : c.socket_ = true)
    (status : Option ℕ) (reason : Option (List UInt8)) (wire : Wire) (call : RecvCall) :
    ∃ message, (call.receive maskingKey (c.publishReceivedClose status reason) wire).result =
      .error (.webSocket .invalidState message) := by
  have hnonneg := call.offset_nonneg
  have hpos := call.count_pos
  have hfits := call.fits
  have hstate : (c.publishReceivedClose status reason).state_ ∉
      [WebSocketState.open_, WebSocketState.closeSent] := by
    simp only [publishReceivedClose]
    split <;> decide
  have hconnected : (c.publishReceivedClose status reason).socket_ = true := hsocket
  have hchecks : receiveChecks call.buffer call.offset call.count
      (c.publishReceivedClose status reason) = .error (.webSocket .invalidState
        "The WebSocket is in an invalid state for this operation.") := by
    rw [receiveChecks, validateWebSocketBuffer, if_neg (by omega), if_neg (by omega),
      throwIfNotConnected, if_pos hconnected, throwOnInvalidState, if_neg hstate]
    rfl
  rw [RecvCall.receive, receiveAsync, hchecks]
  exact ⟨_, rfl⟩

/-- What calls that have delivered `d` of the messages `r` make of the frames after them. -/
structure Reassembles (maskingKey : ℕ → UInt32) (r' : Received) (tail : List UInt8)
    (c : ClientWebSocket) (d r : Received) (fs : List Frame) (sent : List (List UInt8))
    (calls : List RecvCall) (receipt : Receipt) : Prop where
  read : ∃ fs₁ fs₂ d' r₁ pongs, fs = fs₁ ++ fs₂ ∧ Conforms kMaxFramePayloadBytes r fs₁ r₁ ∧
    receipt.chunks.foldlM Received.chunk d = some d' ∧
    (leftoverChunks receipt.client).foldlM Received.chunk d' = some r₁ ∧
    receipt.wire.sent = sent ++ pongs ∧ List.Forall₂ IsPong (pings fs₁) pongs ∧
    ∀ e, receipt.ended = some e →
      fs₂ = [] ∧ d' = r' ∧ Ending kMaxFramePayloadBytes r' tail e
  unwritten : receipt.unwritten = true
  count : receipt.ended = none → receipt.chunks.length = calls.length
  enough : work c fs < calls.length → receipt.ended ≠ none
  closed : ∀ status reason, receipt.ended = some (.close status reason) →
    receipt.client.closeStatus_ = status ∧ receipt.client.closeStatusDescription_ = reason ∧
    ∀ call : RecvCall, ∃ message, (call.receive maskingKey receipt.client receipt.wire).result =
      .error (.webSocket .invalidState message)

/-- The induction over the calls of a receiver. -/
theorem receives_spec (htail : Ending kMaxFramePayloadBytes r' tail e) (calls : List RecvCall)
    (h : Reading r' tail c wire d r fs) :
    Reassembles maskingKey r' tail c d r fs wire.sent calls (receives maskingKey c wire calls) := by
  induction calls generalizing c wire d r fs with
  | nil =>
    refine ⟨⟨[], fs, d, r, [], rfl, .nil r, rfl, h.follows.leftover, (List.append_nil _).symm, .nil,
      fun _ he => by cases he⟩, rfl, fun _ => rfl, fun hlt => absurd hlt (Nat.not_lt_zero _),
      fun _ _ he => by cases he⟩
  | cons call calls ih =>
    rw [receives]
    obtain ⟨k, d', r₁, fs₁, fs₂, pongs, ⟨result, hresult, hne, rfl⟩, hk, hfs, hfs₁, hafter, hsent, hpongs,
      hless⟩ | hfinish := receive_step maskingKey htail call h
    · have hrest := ih hafter
      obtain ⟨gs₁, gs₂, d₂, r₂, more, hgs, hgs₁, hchunks, hleftover, hmore, hforall, hended⟩ :=
        hrest.read
      simp only [hresult, if_neg hne]
      refine ⟨⟨fs₁ ++ gs₁, gs₂, d₂, r₂, pongs ++ more, ?_, conforms_append hfs₁ hgs₁, ?_, hleftover, ?_,
        ?_, hended⟩, hrest.unwritten, ?_, ?_, hrest.closed⟩
      · rw [hfs, hgs, List.append_assoc]
      · rw [List.foldlM_cons, hk]
        exact hchunks
      · rw [hmore, hsent, List.append_assoc]
      · rw [pings_append]
        exact List.rel_append hpongs hforall
      · intro hnone
        rw [List.length_cons, List.length_cons, hrest.count hnone]
      · intro hlt
        rw [List.length_cons] at hlt
        exact hrest.enough (by omega)
    · obtain ⟨rfl, hnothing, ⟨pongs, hsent, hpongs⟩, hbuffer, hended⟩ := hfinish
      obtain ⟨status, reason, hending, hresult, hclient⟩ | ⟨fault, hending, hresult, hclient⟩ := hended
      · simp only [hresult, if_true]
        refine ⟨⟨fs, [], d, d, pongs, (List.append_nil _).symm, h.frames, rfl, ?_, hsent, hpongs, ?_⟩, ?_,
          ?_, ?_, ?_⟩
        · rw [hclient]
          exact congrArg (fun ks => ks.foldlM Received.chunk d) hnothing
        · rintro _ ⟨⟩
          exact ⟨rfl, rfl, hending⟩
        · rw [hbuffer]
          exact beq_self_eq_true _
        · intro hnone
          cases hnone
        · intro _ hnone
          cases hnone
        · rintro _ _ ⟨⟩
          rw [hclient]
          exact ⟨rfl, rfl, receive_closed maskingKey h.follows.socket status reason _⟩
      · simp only [hresult]
        refine ⟨⟨fs, [], d, d, pongs, (List.append_nil _).symm, h.frames, rfl, ?_, hsent, hpongs, ?_⟩, ?_,
          ?_, ?_, ?_⟩
        · rw [hclient, hnothing]
          rfl
        · rintro _ ⟨⟩
          exact ⟨rfl, rfl, hending⟩
        · rw [hbuffer]
          exact beq_self_eq_true _
        · intro hnone
          cases hnone
        · intro _ hnone
          cases hnone
        · intro _ _ hclose
          cases hclose

/-- A client that is connected, and that has received nothing. -/
structure Begins (c : ClientWebSocket) : Prop where
  socket : c.socket_ = true
  state : c.state_ = .open_ ∨ c.state_ = .closeSent
  leftover : c.recvLeftover_ = []
  final : c.lastReceivedFrameWasFinal_ = true

theorem Begins.follows (h : Begins c) : Follows c ⟨[], none⟩ ⟨[], none⟩ where
  socket := h.socket
  state := h.state
  final := h.final
  type _ hm := by cases hm
  leftover := by
    rw [leftoverChunks, h.leftover]
    rfl

/-- **The chunks make up the messages.**  Some frames `fs₁` of a server that conforms have been read,
with payloads of at most 256 MiB: the chunks that were delivered, and what is left of the last frame,
are their messages, and the pings among them are answered in order.  Calls go on to give chunks until
what ends the frames is reported: all the messages are delivered then, and nothing of what ends them
is.  A Close frame is reported once, with its status and its reason. -/
theorem messages_received (maskingKey : ℕ → UInt32) {c : ClientWebSocket} (hc : Begins c)
    {fs : List Frame} {r : Received} (hfs : Conforms kMaxFramePayloadBytes ⟨[], none⟩ fs r)
    {tail : List UInt8} {e : Ended} (htail : Ending kMaxFramePayloadBytes r tail e)
    (sent : List (List UInt8)) (calls : List RecvCall) :
    let receipt := receives maskingKey c ⟨framesBytes fs ++ tail, sent⟩ calls
    (∃ fs₁ fs₂ d r₁ pongs, fs = fs₁ ++ fs₂ ∧ Conforms kMaxFramePayloadBytes ⟨[], none⟩ fs₁ r₁ ∧
      assemble receipt.chunks = some d ∧
      (leftoverChunks receipt.client).foldlM Received.chunk d = some r₁ ∧
      receipt.wire.sent = sent ++ pongs ∧ List.Forall₂ IsPong (pings fs₁) pongs ∧
      ∀ e, receipt.ended = some e → fs₂ = [] ∧ d = r ∧ Ending kMaxFramePayloadBytes r tail e) ∧
    receipt.unwritten = true ∧
    (receipt.ended = none → receipt.chunks.length = calls.length) ∧
    ((fs.map fun f => f.payload.length + 1).sum < calls.length → receipt.ended ≠ none) ∧
    ∀ status reason, receipt.ended = some (.close status reason) →
      receipt.client.closeStatus_ = status ∧ receipt.client.closeStatusDescription_ = reason ∧
      ∀ call : RecvCall, ∃ message, (call.receive maskingKey receipt.client receipt.wire).result =
        .error (.webSocket .invalidState message) := by
  intro receipt
  have hspec := receives_spec maskingKey htail calls
    (show Reading r tail c ⟨framesBytes fs ++ tail, sent⟩ ⟨[], none⟩ ⟨[], none⟩ fs from
      ⟨hc.follows, rfl, hfs⟩)
  refine ⟨hspec.read, hspec.unwritten, hspec.count, fun hlt => hspec.enough ?_, hspec.closed⟩
  rw [work, leftoverLength, hc.leftover]
  simpa using hlt

def someFrames : List Frame := [⟨false, 0x1, [97, 98]⟩, ⟨true, 0x9, [7]⟩, ⟨true, 0x0, [99]⟩]

def smallCall : RecvCall := ⟨[0, 0, 0], 1, 1, by decide, by decide, by decide⟩

theorem conforms_someFrames :
    Conforms kMaxFramePayloadBytes ⟨[], none⟩ someFrames ⟨[⟨.text, [97, 98, 99]⟩], none⟩ := by
  refine @Conforms.data _ _ ⟨[], some ⟨.text, [97, 98]⟩⟩ _ _ _ rfl (by decide)
    (fun hfin => by cases hfin) ?_
  refine .heartbeat ⟨Or.inl rfl, rfl, by decide⟩ ?_
  refine @Conforms.data _ _ ⟨[⟨.text, [97, 98, 99]⟩], none⟩ _ _ _ rfl (by decide) ?_ (.nil _)
  rintro - m hm -
  cases hm
  refine (isValidUtf8_iff _).mp ?_
  simp [isValidUtf8]

/-- The theorem at some frames and a Close frame after them. -/
theorem messages_received_some_frames :
    let receipt := receives (fun _ => 0) connected
      ⟨framesBytes someFrames ++ (Frame.bytes ⟨true, 0x8, bigEndian 2 1000⟩ ++ []), []⟩
      (List.replicate 8 smallCall)
    assemble receipt.chunks = some ⟨[⟨.text, [97, 98, 99]⟩], none⟩ ∧ receipt.ended ≠ none := by
  intro receipt
  obtain ⟨⟨fs₁, fs₂, d, r₁, pongs, -, -, hd, -, -, -, hended⟩, -, -, henough, -⟩ :=
    messages_received (fun _ => 0) (c := connected) ⟨rfl, Or.inl rfl, rfl, rfl⟩
      conforms_someFrames (.close (.status (Or.inl ⟨le_refl 1000, by decide⟩))) []
      (List.replicate 8 smallCall)
  have hne : receipt.ended ≠ none := henough (by decide)
  obtain ⟨e, he⟩ := Option.ne_none_iff_exists'.mp hne
  obtain ⟨-, rfl, -⟩ := hended e he
  exact ⟨hd, hne⟩

def longForm : List UInt8 := [0x82, 126, 0, 1, 7]

theorem longForm_ne (f : Frame) (rest : List UInt8) : longForm ≠ f.bytes ++ rest := by
  intro heq
  rw [longForm, Frame.bytes, List.cons_append, List.append_assoc] at heq
  have hlength := (List.cons.inj heq).2
  rw [lengthField] at hlength
  split at hlength
  · rename_i hshort
    have hbyte := congrArg UInt8.toNat (List.cons.inj hlength).1
    rw [UInt8.toNat_ofNat'] at hbyte
    change 126 = _ at hbyte
    omega
  · split at hlength
    · rename_i hlong htwo
      rw [List.cons_append] at hlength
      have hbytes := congrArg (List.take 2) (List.cons.inj hlength).2
      rw [List.take_left' (length_bigEndian 2 _)] at hbytes
      have hvalue := congrArg (fun s : List UInt8 => Printed.value 256 (s.map UInt8.toNat)) hbytes
      simp only [toNat_bigEndian, Printed.value_fixed_of_lt
        (show f.payload.length < 256 ^ 2 by omega)] at hvalue
      change 1 = _ at hvalue
      omega
    · exact absurd (List.cons.inj hlength).1 (by decide)

def longFrame : Frame := ⟨true, 0x2, List.replicate (kMaxFramePayloadBytes + 1) 0⟩

theorem length_longFrame : longFrame.payload.length = kMaxFramePayloadBytes + 1 :=
  List.length_replicate ..

/-- A length in a longer form than it needs is not refused, and a frame of more than 256 MiB is. -/
theorem not_messages_received :
    ((∀ (f : Frame) (rest : List UInt8), longForm ≠ f.bytes ++ rest) ∧
      (receives (fun _ => 0) connected ⟨longForm, []⟩ [smallCall]).chunks =
        [⟨.binary, [7], true⟩]) ∧
    Conforms (kMaxFramePayloadBytes + 1) ⟨[], none⟩ [longFrame]
        ⟨[⟨.binary, longFrame.payload⟩], none⟩ ∧
      ∀ calls : List RecvCall, (receives (fun _ => 0) connected
        ⟨framesBytes [longFrame] ++ [], []⟩ calls).chunks = [] := by
  refine ⟨⟨longForm_ne, ?_⟩, .data rfl length_longFrame.le ?_ (.nil _), ?_⟩
  · have hread : readFrame connected longForm = (.ok ⟨0x2, true, [7]⟩, []) := rfl
    have hreceive : smallCall.receive (fun _ => 0) connected ⟨longForm, []⟩ = _ :=
      (receive_eq smallCall (fun _ => 0) ⟨longForm, []⟩ rfl (Or.inl rfl)).trans
        ((if_neg (by decide)).trans
          (receiveLoop_of_frame (fun _ => 0) rfl hread _ _ _ _))
    rw [receives, hreceive]
    rfl
  · rintro - m hm htype
    cases hm
    cases htype
  · intro calls
    cases calls with
    | nil => rfl
    | cons call calls =>
      have hreadable : Readable longFrame := readable_of_data (Or.inr (Or.inr rfl)) (by
        rw [length_longFrame]
        unfold kMaxFramePayloadBytes
        omega)
      have hread := readFrame_header (c := connected) rfl hreadable
        (framesBytes [] ++ [])
      rw [if_pos (by rw [length_longFrame]; exact Nat.lt_succ_self _)] at hread
      have hreceive := (receive_eq call (fun _ => 0) ⟨framesBytes [longFrame] ++ [], []⟩
        (c := connected) rfl (Or.inl rfl)).trans (if_neg (by decide))
      rw [framesBytes_cons, receiveLoop_of_fault (fun _ => 0) hread] at hreceive
      rw [receives, framesBytes_cons, hreceive]

end SharpRuntime.Analysis.WebSocketReassembly
