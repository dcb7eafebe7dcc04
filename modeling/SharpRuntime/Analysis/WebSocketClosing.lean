import SharpRuntime.Analysis.WebSocketFrames

/-!
# The closing handshake

The state of a socket says how many Close frames it has sent: none while it is open or has only
received one, one after that.  No call of a history changes this, whatever it throws.  So a call
of `closeAsync` that sends the frame or waits for the other one ends the handshake; a socket that
has received a Close frame is left as it is.
-/

set_option autoImplicit false

namespace SharpRuntime.Analysis.WebSocketClosing

open Model Model.ClientWebSocket WebSocketFrames

/-- An `int` counts the bytes of a Close frame with the reason. -/
def ShortReason (statusDescription : Option (List UInt8)) : Prop :=
  (statusDescription.getD []).length + 16 ≤ intcsMax

instance (statusDescription : Option (List UInt8)) : Decidable (ShortReason statusDescription) :=
  inferInstanceAs (Decidable (_ ≤ _))

inductive SocketCall where
  | sendAsync (call : SendCall)
  | receiveAsync (maskingKey : ℕ → UInt32) (buffer : List UInt8) (offset count : ℤ)
  | closeOutputAsync (closeStatus : UInt16) (statusDescription : Option (List UInt8))
    (maskingKey : UInt32) (hshort : ShortReason statusDescription)
  | closeAsync (closeStatus : UInt16) (statusDescription : Option (List UInt8))
    (maskingKey : UInt32) (hshort : ShortReason statusDescription)
  | abort
  | dispose

def perform (c : ClientWebSocket) (wire : Wire) : SocketCall → ClientWebSocket × Wire
  | .sendAsync call =>
    match c.sendAsync call.buffer call.offset call.count call.messageType call.endOfMessage
      call.maskingKey with
    | .error _ => (c, wire)
    | .ok (sent, c') => (c', { wire with sent := wire.sent ++ [sent] })
  | .receiveAsync maskingKey buffer offset count =>
    let receiving := ClientWebSocket.receiveAsync maskingKey buffer offset count c wire
    (receiving.client, receiving.wire)
  | .closeOutputAsync closeStatus statusDescription maskingKey _ =>
    let closing := ClientWebSocket.closeOutputAsync closeStatus statusDescription maskingKey c wire
    (closing.client, closing.wire)
  | .closeAsync closeStatus statusDescription maskingKey _ =>
    let closing := ClientWebSocket.closeAsync closeStatus statusDescription maskingKey c wire
    (closing.client, closing.wire)
  | .abort => (c.abort, wire)
  | .dispose => (c.dispose, wire)

def performAll : List SocketCall → ClientWebSocket × Wire → ClientWebSocket × Wire :=
  fun calls start => calls.foldl (fun w call => perform w.1 w.2 call) start

/-- The opcode of a frame that is sent is that of a Close frame. -/
def isCloseFrame (frame : List UInt8) : Bool := frame.headD 0 &&& 0x0F == 0x8

def closeFrames (wire : Wire) : ℕ := wire.sent.countP isCloseFrame

/-- The number of Close frames sent, by the state; a socket in a connected state is there. -/
def Handshake (c : ClientWebSocket) (wire : Wire) : Prop :=
  match c.state_ with
  | .open_ | .closeReceived => c.socket_ = true ∧ closeFrames wire = 0
  | .closeSent => c.socket_ = true ∧ closeFrames wire = 1
  | .closed => c.socket_ = true → closeFrames wire = 1
  | .aborted => c.socket_ = false
  | .none | .connecting => False

variable {c c' : ClientWebSocket} {wire wire' : Wire}

theorem Handshake.congr (h : Handshake c wire) (hstate : c'.state_ = c.state_)
    (hsocket : c'.socket_ = c.socket_) (hsent : closeFrames wire' = closeFrames wire) :
    Handshake c' wire' := by
  unfold Handshake
  rw [hstate, hsocket, hsent]
  exact h

theorem closeFrames_append (wire : Wire) (incoming : List UInt8) (frame : List UInt8) :
    closeFrames ⟨incoming, wire.sent ++ [frame]⟩ =
      closeFrames wire + if isCloseFrame frame then 1 else 0 := by
  rw [closeFrames, List.countP_append, List.countP_singleton, closeFrames]

theorem isCloseFrame_frameBytes (opcode : UInt8) (data : List UInt8) (fin : Bool)
    (maskingKey : UInt32) :
    isCloseFrame (frameBytes opcode data fin maskingKey) =
      (((if fin then 0x80 else 0x00) ||| (opcode &&& 0x0F)) &&& 0x0F == 0x8) := rfl

theorem isCloseFrame_of_sendFrame {opcode : UInt8} {data sent : List UInt8} {fin : Bool}
    {maskingKey : UInt32} (h : sendFrame c opcode data fin maskingKey = .ok sent)
    (hnot : isCloseFrame (frameBytes opcode data fin maskingKey) = false) :
    isCloseFrame sent = false := by
  rw [sendFrame, socketForIo, if_pos (socket_of_sendFrame h)] at h
  rw [ok_bind, send] at h
  generalize toIntcs _ = count at h
  split at h
  · cases h
  · obtain rfl := Except.ok.inj h
    cases count.toNat with
    | zero =>
      rw [List.take_zero]
      rfl
    | succ n => exact hnot

theorem sendAsync_handshake (h : Handshake c wire) (call : SendCall) :
    Handshake (perform c wire (.sendAsync call)).1 (perform c wire (.sendAsync call)).2 := by
  unfold perform
  dsimp only
  split
  case h_1 => exact h
  case h_2 sent c' hsend =>
    obtain ⟨-, rfl, rfl⟩ := sendAsync_eq_ok hsend
    refine h.congr rfl rfl ?_
    have hdata : isCloseFrame (frameBytes (c.dataOpcode call.messageType) call.payload
        call.endOfMessage call.maskingKey) = false := by
      rw [isCloseFrame_frameBytes, dataOpcode]
      cases call.endOfMessage <;> cases c.sendContinuation_ <;> cases call.messageType <;> rfl
    rw [closeFrames_append, hdata]
    rfl

theorem deliverFrame_keeps (c : ClientWebSocket) (wire : Wire) (buffer : List UInt8)
    (offset count : ℕ) (frame : RawFrame) :
    (deliverFrame buffer offset count frame c wire).client.state_ = c.state_ ∧
      (deliverFrame buffer offset count frame c wire).client.socket_ = c.socket_ ∧
      (deliverFrame buffer offset count frame c wire).wire = wire := by
  unfold deliverFrame
  dsimp only
  split
  · exact ⟨rfl, rfl, rfl⟩
  split
  · exact ⟨rfl, rfl, rfl⟩
  split <;> exact ⟨rfl, rfl, rfl⟩

theorem receiveClose_handshake (h : Handshake c wire)
    (hstate : c.state_ = .open_ ∨ c.state_ = .closeSent) (buffer : List UInt8) (frame : RawFrame) :
    Handshake (receiveClose buffer frame c wire).client
      (receiveClose buffer frame c wire).wire := by
  unfold receiveClose
  split
  · exact h
  rcases hstate with hopen | hsent
  · simpa [Handshake, publishReceivedClose, hopen] using h
  · have hcount : closeFrames wire = 1 := by
      simp only [Handshake, hsent] at h
      exact h.2
    simp [Handshake, publishReceivedClose, hsent, hcount]

theorem receiveLoop_handshake (maskingKey : ℕ → UInt32) (buffer : List UInt8) (offset count : ℕ)
    (h : Handshake c wire) (hstate : c.state_ = .open_ ∨ c.state_ = .closeSent) :
    Handshake (receiveLoop maskingKey buffer offset count c wire).client
      (receiveLoop maskingKey buffer offset count c wire).wire := by
  fun_induction receiveLoop maskingKey buffer offset count c wire with
  | case1 wire e incoming hframe => exact h
  | case2 wire frame incoming hframe hping e hpong => exact h
  | case3 wire frame incoming hframe hping pong hpong ih =>
    refine ih (h.congr rfl rfl ?_)
    have hnot := isCloseFrame_of_sendFrame hpong ((isCloseFrame_frameBytes _ _ _ _).trans rfl)
    rw [closeFrames_append, hnot]
    rfl
  | case4 wire frame incoming hframe hping hpong ih => exact ih (h.congr rfl rfl rfl)
  | case5 wire frame incoming hframe hping hpong hclose =>
    have hrest : Handshake c ⟨incoming, wire.sent⟩ := h.congr rfl rfl rfl
    exact receiveClose_handshake hrest hstate buffer frame
  | case6 wire frame incoming hframe hping hpong hclose =>
    obtain ⟨hkept, hsocket, hwire⟩ :=
      deliverFrame_keeps c ⟨incoming, wire.sent⟩ buffer offset count frame
    refine h.congr hkept hsocket ?_
    rw [hwire]
    rfl

theorem state_of_receiveChecks {buffer : List UInt8} {offset count : ℤ} {u : Unit}
    (h : receiveChecks buffer offset count c = .ok u) :
    c.state_ = .open_ ∨ c.state_ = .closeSent := by
  simp only [receiveChecks, throwOnInvalidState, bind, Except.bind] at h
  grind

theorem receiveAsync_handshake (h : Handshake c wire) (maskingKey : ℕ → UInt32)
    (buffer : List UInt8) (offset count : ℤ) :
    Handshake (receiveAsync maskingKey buffer offset count c wire).client
      (receiveAsync maskingKey buffer offset count c wire).wire := by
  rw [receiveAsync]
  split
  · exact h
  case h_2 u hchecks =>
    split
    · refine h.congr ?_ ?_ rfl
      · unfold takeLeftover
        dsimp only
        split <;> rfl
      · unfold takeLeftover
        dsimp only
        split <;> rfl
    · exact receiveLoop_handshake maskingKey buffer _ _ h (state_of_receiveChecks hchecks)

section Close

variable (closeStatus : UInt16) (statusDescription : Option (List UInt8)) (maskingKey : UInt32)

theorem sendCloseFrame_ok (hsocket : c.socket_ = true) (hshort : ShortReason statusDescription) :
    ∃ sent, sendCloseFrame c closeStatus statusDescription maskingKey = .ok sent ∧
      isCloseFrame sent = true := by
  have hdata (high low : UInt8) : Short ([high, low] ++ statusDescription.getD []) := by
    rw [ShortReason] at hshort
    rw [Short, List.length_append, List.length_cons, List.length_singleton]
    omega
  refine ⟨_, sendFrame_ok hsocket (hdata _ _) _ _ _, ?_⟩
  rw [isCloseFrame_frameBytes]
  rfl

theorem closeOutputAsync_handshake (hshort : ShortReason statusDescription)
    (h : Handshake c wire) :
    Handshake (closeOutputAsync closeStatus statusDescription maskingKey c wire).client
      (closeOutputAsync closeStatus statusDescription maskingKey c wire).wire := by
  unfold closeOutputAsync throwOnInvalidState
  by_cases hstate : c.state_ ∈ [WebSocketState.open_, .closeReceived]
  · have hconnected : c.socket_ = true ∧ closeFrames wire = 0 := by
      rcases List.mem_cons.mp hstate with hopen | hreceived
      · simpa only [Handshake, hopen] using h
      · rw [List.mem_singleton] at hreceived
        simpa only [Handshake, hreceived] using h
    obtain ⟨sent, hsent, hclose⟩ :=
      sendCloseFrame_ok closeStatus statusDescription maskingKey hconnected.1 hshort
    have hcount := closeFrames_append wire wire.incoming sent
    rw [hclose, if_pos rfl, hconnected.2] at hcount
    rw [throwIfNotConnected, if_pos hconnected.1, if_pos hstate, hsent]
    by_cases hreceived : c.state_ = .closeReceived
    · rw [if_pos hreceived]
      exact fun _ => hcount
    · rw [if_neg hreceived]
      exact ⟨hconnected.1, hcount⟩
  · rw [if_neg hstate]
    cases throwIfNotConnected c <;> exact h

/-- A Close frame is read; the frames before it are of other kinds. -/
inductive ReadsClose (c : ClientWebSocket) (frame : RawFrame) : List UInt8 → List UInt8 → Prop
  | last {incoming rest : List UInt8} (hread : readFrame c incoming = (.ok frame, rest))
    (hclose : frame.opcode = 0x8) : ReadsClose c frame incoming rest
  | dropped {other : RawFrame} {incoming mid rest : List UInt8}
    (hread : readFrame c incoming = (.ok other, mid)) (hother : other.opcode ≠ 0x8)
    (hrest : ReadsClose c frame mid rest) : ReadsClose c frame incoming rest

theorem ReadsClose.congr {frame : RawFrame} {incoming rest : List UInt8}
    (h : ReadsClose c frame incoming rest) (hsocket : c.socket_ = true)
    (hsocket' : c'.socket_ = true) : ReadsClose c' frame incoming rest := by
  have hread : readFrame c = readFrame c' := by
    funext s
    rw [readFrame, readFrame, socketForIo, socketForIo, if_pos hsocket, if_pos hsocket']
  induction h with
  | last hthis hclose => exact .last (hread ▸ hthis) hclose
  | dropped hthis hother _ ih => exact .dropped (hread ▸ hthis) hother ih

/-- The state after the handshake: a Close frame has been read, with its status. -/
structure Ends (c : ClientWebSocket) (wire : Wire) (closing : Closing) : Prop where
  closed : closing.client.state_ = .closed
  sent : closeFrames closing.wire = 1
  received : ∃ frame, ReadsClose c frame wire.incoming closing.wire.incoming ∧
    parseClosePayload frame.payload =
      .ok (closing.client.closeStatus_, closing.client.closeStatusDescription_)

theorem awaitClose_spec (c : ClientWebSocket) (wire : Wire) :
    (awaitClose c wire).wire.sent = wire.sent ∧
      (((awaitClose c wire).client.state_ = .closed ∧
          ∃ frame, ReadsClose c frame wire.incoming (awaitClose c wire).wire.incoming ∧
            parseClosePayload frame.payload = .ok ((awaitClose c wire).client.closeStatus_,
              (awaitClose c wire).client.closeStatusDescription_)) ∨
        (∃ e, (awaitClose c wire).result = .error e) ∧ (awaitClose c wire).client = c) := by
  fun_induction awaitClose c wire with
  | case1 wire e incoming hframe => exact ⟨rfl, .inr ⟨⟨e, rfl⟩, rfl⟩⟩
  | case2 wire frame incoming hframe hclose e hparse => exact ⟨rfl, .inr ⟨⟨e, rfl⟩, rfl⟩⟩
  | case3 wire frame incoming hframe hclose status description hparse =>
    exact ⟨rfl, .inl ⟨rfl, frame, .last hframe hclose, hparse⟩⟩
  | case4 wire frame incoming hframe hother ih =>
    obtain ⟨hsent, hends⟩ := ih
    refine ⟨hsent, hends.imp (fun ⟨hclosed, frame', hreads, hparse⟩ => ?_) id⟩
    exact ⟨hclosed, frame', .dropped hframe hother hreads, hparse⟩

theorem closeAsync_open (wire : Wire) (hshort : ShortReason statusDescription)
    (hsocket : c.socket_ = true) (hopen : c.state_ = .open_) :
    ∃ sent, isCloseFrame sent = true ∧
      closeAsync closeStatus statusDescription maskingKey c wire =
        awaitClose { c with state_ := .closeSent } ⟨wire.incoming, wire.sent ++ [sent]⟩ := by
  obtain ⟨sent, hsent, hclose⟩ :=
    sendCloseFrame_ok closeStatus statusDescription maskingKey hsocket hshort
  refine ⟨sent, hclose, ?_⟩
  rw [closeAsync, throwIfNotConnected, if_pos hsocket]
  simp only [hopen, if_true, hsent]

theorem closeAsync_sent (hsocket : c.socket_ = true) (hsent : c.state_ = .closeSent) :
    closeAsync closeStatus statusDescription maskingKey c wire = awaitClose c wire := by
  rw [closeAsync, throwIfNotConnected, if_pos hsocket]
  simp [hsent]

theorem closeAsync_other (hopen : c.state_ ≠ .open_) (hsent : c.state_ ≠ .closeSent) :
    (closeAsync closeStatus statusDescription maskingKey c wire).client = c ∧
      (closeAsync closeStatus statusDescription maskingKey c wire).wire = wire := by
  rw [closeAsync]
  split
  · exact ⟨rfl, rfl⟩
  · rw [if_neg hopen, if_neg hsent]
    exact ⟨rfl, rfl⟩

theorem closeAsync_ends (hshort : ShortReason statusDescription) (h : Handshake c wire)
    (hstate : c.state_ = .open_ ∨ c.state_ = .closeSent) :
    Ends c wire (closeAsync closeStatus statusDescription maskingKey c wire) ∨
      (∃ e, (closeAsync closeStatus statusDescription maskingKey c wire).result = .error e) ∧
        Handshake (closeAsync closeStatus statusDescription maskingKey c wire).client
          (closeAsync closeStatus statusDescription maskingKey c wire).wire := by
  have hwait : ∀ wire', closeFrames wire' = 1 → wire'.incoming = wire.incoming →
      c.socket_ = true → Ends c wire (awaitClose { c with state_ := .closeSent } wire') ∨
        (∃ e, (awaitClose { c with state_ := .closeSent } wire').result = .error e) ∧
          Handshake (awaitClose { c with state_ := .closeSent } wire').client
            (awaitClose { c with state_ := .closeSent } wire').wire := by
    intro wire' hcount hincoming hsocket
    obtain ⟨hsent, ⟨hclosed, frame, hreads, hparse⟩ | ⟨herror, hclient⟩⟩ :=
      awaitClose_spec { c with state_ := .closeSent } wire'
    · have hends : closeFrames (awaitClose { c with state_ := .closeSent } wire').wire = 1 := by
        rw [closeFrames, hsent]
        exact hcount
      rw [hincoming] at hreads
      exact .inl ⟨hclosed, hends, frame, hreads.congr hsocket hsocket, hparse⟩
    · refine .inr ⟨herror, ?_⟩
      rw [hclient]
      refine ⟨hsocket, ?_⟩
      rw [closeFrames, hsent]
      exact hcount
  rcases hstate with hopen | hsent
  · simp only [Handshake, hopen] at h
    obtain ⟨sent, hclose, heq⟩ :=
      closeAsync_open closeStatus statusDescription maskingKey wire hshort h.1 hopen
    have hcount := closeFrames_append wire wire.incoming sent
    rw [hclose, if_pos rfl, h.2] at hcount
    rw [heq]
    exact hwait _ hcount rfl h.1
  · simp only [Handshake, hsent] at h
    have hsame : { c with state_ := .closeSent } = c := by
      rw [← hsent]
    have hthis := hwait wire h.2 rfl h.1
    rw [hsame] at hthis
    rw [closeAsync_sent closeStatus statusDescription maskingKey h.1 hsent]
    exact hthis

theorem closeAsync_handshake (hshort : ShortReason statusDescription) (h : Handshake c wire) :
    Handshake (closeAsync closeStatus statusDescription maskingKey c wire).client
      (closeAsync closeStatus statusDescription maskingKey c wire).wire := by
  by_cases hstate : c.state_ = .open_ ∨ c.state_ = .closeSent
  · rcases closeAsync_ends closeStatus statusDescription maskingKey hshort h hstate with
      hends | herror
    · unfold Handshake
      rw [hends.closed]
      exact fun _ => hends.sent
    · exact herror.2
  · obtain ⟨hopen, hsent⟩ := not_or.mp hstate
    obtain ⟨hclient, hwire⟩ :=
      closeAsync_other closeStatus statusDescription maskingKey hopen hsent
    rw [hclient, hwire]
    exact h

end Close

theorem dispose_handshake (c : ClientWebSocket) (wire : Wire) : Handshake c.dispose wire := by
  unfold Handshake ClientWebSocket.dispose
  by_cases haborted : c.state_ = .aborted <;> simp [haborted]

theorem perform_handshake (h : Handshake c wire) (call : SocketCall) :
    Handshake (perform c wire call).1 (perform c wire call).2 := by
  cases call with
  | sendAsync call => exact sendAsync_handshake h call
  | receiveAsync maskingKey buffer offset count =>
    exact receiveAsync_handshake h maskingKey buffer offset count
  | closeOutputAsync closeStatus statusDescription maskingKey hshort =>
    exact closeOutputAsync_handshake closeStatus statusDescription maskingKey hshort h
  | closeAsync closeStatus statusDescription maskingKey hshort =>
    exact closeAsync_handshake closeStatus statusDescription maskingKey hshort h
  | abort => exact dispose_handshake _ wire
  | dispose => exact dispose_handshake c wire

theorem performAll_handshake (calls : List SocketCall) (h : Handshake c wire) :
    Handshake (performAll calls (c, wire)).1 (performAll calls (c, wire)).2 := by
  induction calls generalizing c wire with
  | nil => exact h
  | cons call calls ih => exact ih (perform_handshake h call)

/-- **`closeAsync` completes the handshake, except on a socket that has received a Close frame.**
After any history of calls on a connection, whatever the server sends, a call in a connected state
that completes has ended the handshake: one Close frame was sent, one is received, and its status
is the socket's.  After a received Close frame the call completes and does nothing. -/
theorem close_handshake (calls : List SocketCall) (incoming : List UInt8) (closeStatus : UInt16)
    (statusDescription : Option (List UInt8)) (maskingKey : UInt32)
    {c : ClientWebSocket} {wire : Wire} (hshort : ShortReason statusDescription)
    (hrun : performAll calls (connected, ⟨incoming, []⟩) = (c, wire))
    (hstate : c.state_ ∈ [WebSocketState.open_, .closeSent, .closeReceived]) :
    ((closeAsync closeStatus statusDescription maskingKey c wire).result = .ok () →
        Ends c wire (closeAsync closeStatus statusDescription maskingKey c wire)) ↔
      c.state_ ≠ .closeReceived := by
  have hstart : Handshake connected ⟨incoming, []⟩ := ⟨rfl, rfl⟩
  have h := performAll_handshake calls hstart
  rw [hrun] at h
  constructor
  · intro hends hreceived
    have hcompletes :
        (closeAsync closeStatus statusDescription maskingKey c wire).result = .ok () := by
      simp only [Handshake, hreceived] at h
      rw [closeAsync, throwIfNotConnected, if_pos h.1]
      simp [hreceived]
    have hclosed := (hends hcompletes).closed
    rw [(closeAsync_other closeStatus statusDescription maskingKey (by simp [hreceived])
      (by simp [hreceived])).1, hreceived] at hclosed
    cases hclosed
  · intro hnot hcompletes
    have hopen : c.state_ = .open_ ∨ c.state_ = .closeSent := by simpa [hnot] using hstate
    rcases closeAsync_ends closeStatus statusDescription maskingKey hshort h hopen with
      hends | herror
    · exact hends
    · obtain ⟨⟨e, he⟩, -⟩ := herror
      rw [he] at hcompletes
      cases hcompletes

/-- The socket has closed its output; the server sends a text and its Close frame. -/
theorem close_handshake_output :
    Ends { connected with state_ := .closeSent }
      ⟨[0x81, 1, 0x61, 0x88, 2, 0x03, 0xE8], [frameBytes 0x8 [0x03, 0xE8] true 7]⟩
      (closeAsync 1000 none 9 { connected with state_ := .closeSent }
        ⟨[0x81, 1, 0x61, 0x88, 2, 0x03, 0xE8], [frameBytes 0x8 [0x03, 0xE8] true 7]⟩) :=
  (close_handshake [.closeOutputAsync 1000 none 7 (by decide)]
    [0x81, 1, 0x61, 0x88, 2, 0x03, 0xE8] 1000 none 9 (by decide) (by decide +kernel)
    (by decide)).mpr (by decide) (by decide +kernel)

/-- The members and the wire after the server has closed first. -/
def closedFirst : ClientWebSocket × Wire :=
  performAll [.receiveAsync (fun _ => 0) [] 0 0] (connected, ⟨[0x88, 0], []⟩)

/-- The call completes, no Close frame is sent and the state stays `CloseReceived`. -/
theorem close_after_receive :
    closedFirst.1.state_ = .closeReceived ∧
      (closeAsync 1000 none 9 closedFirst.1 closedFirst.2).result = .ok () ∧
      ¬Ends closedFirst.1 closedFirst.2 (closeAsync 1000 none 9 closedFirst.1 closedFirst.2) := by
  have hresult : (closeAsync 1000 none 9 closedFirst.1 closedFirst.2).result = .ok () ∧
      (closeAsync 1000 none 9 closedFirst.1 closedFirst.2).client.state_ ≠ .closed := by
    decide +kernel
  exact ⟨by decide +kernel, hresult.1, fun hends => hresult.2 hends.closed⟩

end SharpRuntime.Analysis.WebSocketClosing
