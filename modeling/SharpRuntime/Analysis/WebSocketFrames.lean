import SharpRuntime.Interface.WebSocketProtocol

/-!
# The frames of a client

The receiver parses the bytes of a frame into the frame (`parseFrame_frameBytes`), and makes of the
frames of a sequence of `sendAsync` calls the messages that the calls are parts of
(`sends_received`).
-/

set_option autoImplicit false
set_option maxRecDepth 20000

namespace SharpRuntime.Analysis.WebSocketFrames

open Machine Model Model.ClientWebSocket
open Interface.WebSocketProtocol

theorem first_byte (opcode : UInt8) (fin : Bool) :
    let first := (if fin then 0x80 else 0x00) ||| (opcode &&& 0x0F)
    first &&& 0x70 = 0 ∧ decide (first &&& 0x80 ≠ 0) = fin ∧ first &&& 0x0F = opcode &&& 0x0F := by
  revert opcode fin
  decide

variable {n : ℕ}

theorem second_byte (h : n ≤ 127) :
    UInt8.ofNat (0x80 ||| n) &&& 0x80 ≠ 0 ∧ (UInt8.ofNat (0x80 ||| n) &&& 0x7F).toNat = n := by
  have hall : ∀ n : Fin 128, UInt8.ofNat (0x80 ||| n.val) &&& 0x80 ≠ 0 ∧
      (UInt8.ofNat (0x80 ||| n.val) &&& 0x7F).toNat = n.val := by decide
  exact hall ⟨n, by omega⟩

theorem takeNumber_bigEndian {width : ℕ} (h : n < 256 ^ width) (rest : List UInt8) :
    takeNumber width (bigEndian width n ++ rest) = some (n, rest) := by
  grind [takeNumber, toNat_bigEndian, Printed.value_fixed_of_lt, length_bigEndian]

theorem takeLength_lengthBytes {len : ℕ} (h : len < 2 ^ 63) (rest : List UInt8) :
    ∃ second more, lengthBytes len = second :: more ∧ second &&& 0x80 ≠ 0 ∧
      takeLength (second &&& 0x7F).toNat (more ++ rest) = some (len, rest) := by
  rw [lengthBytes]
  by_cases hshort : len ≤ 125
  · obtain ⟨hmask, hlen⟩ := second_byte (show len ≤ 127 by omega)
    rw [if_pos hshort]
    refine ⟨_, [], rfl, hmask, ?_⟩
    rw [hlen, takeLength, if_pos hshort]
    rfl
  · rw [if_neg hshort]
    by_cases htwo : len ≤ 0xFFFF
    · obtain ⟨hmask, hlen⟩ := second_byte (show 126 ≤ 127 by decide)
      have hbytes : [UInt8.ofNat (len >>> 8 &&& 0xFF), UInt8.ofNat (len &&& 0xFF)] =
          bigEndian 2 len := rfl
      rw [if_pos htwo]
      refine ⟨_, _, rfl, hmask, ?_⟩
      rw [hlen, hbytes, takeLength, if_neg (by decide), if_pos rfl,
        takeNumber_bigEndian (by omega), Option.filter_some, if_pos (by simpa using hshort)]
    · obtain ⟨hmask, hlen⟩ := second_byte (show 127 ≤ 127 by decide)
      rw [if_neg htwo]
      refine ⟨_, bigEndian 8 len, rfl, hmask, ?_⟩
      rw [hlen, takeLength, if_neg (by decide), if_neg (by decide),
        takeNumber_bigEndian (by omega), Option.filter_some,
        if_pos (decide_eq_true ⟨by omega, h⟩)]

theorem unmask_mask (key payload : List UInt8) :
    unmask key (payload.mapIdx fun i b => b ^^^ key.getD (i % 4) 0) = payload := by
  rw [unmask, List.mapIdx_mapIdx]
  refine List.ext_getElem (by simp) fun i hi _ => ?_
  simp only [List.getElem_mapIdx, Function.comp_apply]
  rw [UInt8.xor_assoc, UInt8.xor_self, UInt8.xor_zero]

/-- **A frame is parsed into itself, with nothing left over.** -/
theorem parseFrame_frameBytes (opcode : UInt8) (fin : Bool) (maskingKey : UInt32)
    {data : List UInt8} (h : data.length < 2 ^ 63) (rest : List UInt8) :
    parseFrame (frameBytes opcode data fin maskingKey ++ rest) =
      some (⟨fin, (opcode &&& 0x0F).toNat, data⟩, rest) := by
  obtain ⟨hreserved, hfin, hopcode⟩ := first_byte opcode fin
  obtain ⟨second, more, hlength, hmask, htake⟩ := takeLength_lengthBytes h
    (maskBytes maskingKey ++
      ((data.mapIdx fun i b => b ^^^ (maskBytes maskingKey).getD (i % 4) 0) ++ rest))
  have hkey : (maskBytes maskingKey).length = 4 := rfl
  have hdata : (data.mapIdx fun i b => b ^^^ (maskBytes maskingKey).getD (i % 4) 0).length =
      data.length := List.length_mapIdx
  rw [frameBytes, hlength, List.append_assoc, List.append_assoc, List.cons_append, List.cons_append,
    parseFrame, if_neg (by rw [not_or]; exact ⟨not_not.mpr hreserved, hmask⟩), htake]
  simp only [Option.bind_eq_bind, Option.bind_some]
  have henough : ¬ (maskBytes maskingKey ++
      ((data.mapIdx fun i b => b ^^^ (maskBytes maskingKey).getD (i % 4) 0) ++ rest)).length <
      4 + data.length := by
    rw [List.length_append, List.length_append, hkey, hdata]
    omega
  rw [if_neg henough, List.take_left' hkey, List.drop_left' hkey, List.take_left' hdata,
    ← List.drop_drop, List.drop_left' hkey, List.drop_left' hdata, hfin, hopcode, unmask_mask]

/-- An `int` counts the bytes of a frame with the payload. -/
def Short (data : List UInt8) : Prop := data.length + 14 ≤ intcsMax

instance (data : List UInt8) : Decidable (Short data) := inferInstanceAs (Decidable (_ ≤ _))

theorem length_frameBytes_le (opcode : UInt8) (data : List UInt8) (fin : Bool)
    (maskingKey : UInt32) : (frameBytes opcode data fin maskingKey).length ≤ data.length + 14 := by
  have hfield : (lengthBytes data.length).length ≤ 9 := by
    rw [lengthBytes]
    split
    · exact Nat.le_add_left 1 8
    · split
      · exact Nat.le_add_left 3 6
      · exact le_rfl
  have hkey : (maskBytes maskingKey).length = 4 := rfl
  simp only [frameBytes, List.length_append, List.length_cons, List.length_mapIdx, hkey]
  omega

theorem ok_bind {α β : Type} (a : α) (f : α → Except WebSocketFault β) :
    (Except.ok a >>= f) = f a := rfl

theorem sendFrame_ok {c : ClientWebSocket} (hsocket : c.socket_ = true) {data : List UInt8}
    (hshort : Short data) (opcode : UInt8) (fin : Bool) (maskingKey : UInt32) :
    sendFrame c opcode data fin maskingKey = .ok (frameBytes opcode data fin maskingKey) := by
  have hcount := toIntcs_of_le ((length_frameBytes_le opcode data fin maskingKey).trans hshort)
  rw [sendFrame, socketForIo, if_pos hsocket, ok_bind, send, hcount, if_neg (by omega),
    Int.toNat_natCast, List.take_length]

theorem socket_of_sendFrame {c : ClientWebSocket} {opcode : UInt8} {data sent : List UInt8}
    {fin : Bool} {maskingKey : UInt32} (h : sendFrame c opcode data fin maskingKey = .ok sent) :
    c.socket_ = true := by
  by_contra hsocket
  rw [sendFrame, socketForIo, if_neg hsocket, throwIfNotConnected, if_neg hsocket] at h
  split at h <;> cases h

/-- A call with its arguments, and the key that its frame is masked with; an `int` counts the bytes
of its frame. -/
structure SendCall where
  buffer : List UInt8
  offset : ℤ
  count : ℤ
  messageType : WebSocketMessageType
  endOfMessage : Bool
  maskingKey : UInt32
  count_le : count + 14 ≤ intcsMax

namespace SendCall

def payload (call : SendCall) : List UInt8 :=
  (call.buffer.drop call.offset.toNat).take call.count.toNat

end SendCall

variable {c : ClientWebSocket}

theorem sendAsync_eq_ok {c' : ClientWebSocket} {call : SendCall} {sent : List UInt8}
    (h : sendAsync c call.buffer call.offset call.count call.messageType call.endOfMessage
      call.maskingKey = .ok (sent, c')) :
    Short call.payload ∧
      sent = frameBytes (c.dataOpcode call.messageType) call.payload call.endOfMessage
        call.maskingKey ∧ c' = { c with sendContinuation_ := !call.endOfMessage } := by
  have hcount := call.count_le
  have hshort : Short call.payload := by
    have htake : call.payload.length ≤ call.count.toNat := List.length_take_le _ _
    unfold Short intcsMax at *
    omega
  refine ⟨hshort, ?_⟩
  simp only [sendAsync, bind, Except.bind, pure, Except.pure] at h
  split at h
  · cases h
  split at h
  · cases h
  split at h
  · cases h
  split at h
  · cases h
  rename_i hsent
  cases hsent.symm.trans (sendFrame_ok (socket_of_sendFrame hsent) hshort _ _ _)
  cases h
  exact ⟨rfl, rfl⟩

variable {r : Received}

def connected : ClientWebSocket :=
  { initial with socket_ := true, state_ := .open_, connectStarted_ := true }

end SharpRuntime.Analysis.WebSocketFrames

/-!
# The frames of a server

A client reads the frames of a server that conforms (`readFrame_bytes`), and refuses headers that do
not.  What it takes for text is UTF-8 (`isValidUtf8_iff`).
-/

namespace SharpRuntime.Analysis.WebSocketServerFrames

open Machine Model Model.ClientWebSocket
open Interface.WebSocketProtocol

variable {b : UInt8}

theorem utf8Lead_eq (h : ¬ b < 0x80) :
    utf8Lead b = (Utf8.lead? b).map (fun lead => (lead.tails, lead.minimum)) ∧
      ∀ lead, Utf8.lead? b = some lead → b.toNat &&& 0xFF >>> (lead.tails + 2) = lead.payload := by
  have hall : ∀ b : UInt8, ¬ b < 0x80 →
      utf8Lead b = (Utf8.lead? b).map (fun lead => (lead.tails, lead.minimum)) ∧
      (Utf8.lead? b).all fun lead => b.toNat &&& 0xFF >>> (lead.tails + 2) = lead.payload := by
    decide
  grind

theorem lead?_ascii (h : b < 0x80) : Utf8.lead? b = some ⟨0, b.toNat, 0⟩ := by
  have hlt : b.toNat < 0x80 := UInt8.lt_iff_toNat_lt.mp h
  rw [Utf8.lead?, if_pos hlt]

variable {n : ℕ}

theorem utf8Tails_eq (cp : ℕ) {s : List UInt8} (h : n ≤ s.length) :
    utf8Tails cp (s.take n) = Utf8.tails? n cp s := by
  induction n generalizing cp s with
  | zero => rfl
  | succ n ih =>
    cases s with
    | nil => exact absurd h (by simp)
    | cons b s =>
      obtain ⟨htail, hbits⟩ := Utf8.isTail_mask b
      rw [List.length_cons] at h
      rw [List.take_succ_cons, utf8Tails, Utf8.tails?]
      by_cases hb : Utf8.IsTail b
      · have hbound : (b &&& 0x3F).toNat < 2 ^ 6 := by
          rw [hbits]
          exact Nat.mod_lt _ (by decide)
        rw [if_neg (by simpa using htail.mp hb), if_pos hb, ih _ (by omega), shiftLeft_or _ hbound,
          hbits]
        rfl
      · rw [if_pos (fun hmask => hb (htail.mpr hmask)), if_neg hb]

theorem isValidUtf8_cons (b : UInt8) (s : List UInt8) :
    isValidUtf8 (b :: s) = match utf8.read? (b :: s) with
      | none => false
      | some (_, n) => isValidUtf8 ((b :: s).drop n) := by
  rw [isValidUtf8, Utf8.read?_cons]
  by_cases hascii : b < 0x80
  · have hscalar : Scalar b.toNat := by
      rw [scalar_iff]
      have hlt := UInt8.lt_iff_toNat_lt.mp hascii
      have hval : (0x80 : UInt8).toNat = 128 := rfl
      omega
    simp only [if_pos hascii, lead?_ascii hascii, Option.bind_some, Utf8.tails?]
    rw [if_pos ⟨Nat.zero_le _, hscalar⟩]
    rfl
  · obtain ⟨hlead, hpayload⟩ := utf8Lead_eq hascii
    rw [if_neg hascii, hlead]
    cases hsome : Utf8.lead? b with
    | none => rfl
    | some lead =>
      simp only [Option.map_some, Option.bind_some]
      rw [hpayload lead hsome]
      by_cases hshort : s.length < lead.tails
      · have hnone : Utf8.tails? lead.tails lead.payload s = none := by
          cases htails : Utf8.tails? lead.tails lead.payload s with
          | none => rfl
          | some c => exact absurd (Utf8.le_length_of_tails? htails) (by omega)
        rw [if_pos hshort, hnone]
        rfl
      · rw [if_neg hshort, utf8Tails_eq _ (by omega)]
        cases Utf8.tails? lead.tails lead.payload s with
        | none => rfl
        | some c => grind [scalar_iff]

/-- **What is valid is UTF-8.** -/
theorem isValidUtf8_iff (s : List UInt8) : isValidUtf8 s = true ↔ utf8.WellFormed s := by
  induction hlength : s.length using Nat.strong_induction_on generalizing s with
  | _ length ih =>
    rw [utf8.wellFormed_iff]
    cases s with
    | nil => simp [isValidUtf8]
    | cons b s =>
      rw [isValidUtf8_cons]
      cases hread : utf8.read? (b :: s) with
      | none => simp
      | some r =>
        obtain ⟨c, n⟩ := r
        obtain ⟨hpos, -⟩ := utf8.length_of_read? hread
        have hrest := ih ((b :: s).drop n).length
          (by rw [List.length_drop, List.length_cons, ← hlength, List.length_cons]; omega) _ rfl
        simp only [hrest, reduceCtorEq, false_or, Option.some.injEq, Prod.mk.injEq]
        constructor
        · intro h
          exact ⟨c, n, ⟨rfl, rfl⟩, h⟩
        · rintro ⟨_, _, ⟨rfl, rfl⟩, h⟩
          exact h

variable {opcode : ℕ}

theorem first_byte (h : opcode < 16) (fin : Bool) :
    let first := UInt8.ofNat ((if fin then 0x80 else 0) + opcode)
    first &&& 0x70 = 0 ∧ decide (first &&& 0x80 ≠ 0) = fin ∧ first &&& 0x0F = UInt8.ofNat opcode := by
  have hall : ∀ (opcode : Fin 16) (fin : Bool),
      let first := UInt8.ofNat ((if fin then 0x80 else 0) + opcode.val)
      first &&& 0x70 = 0 ∧ decide (first &&& 0x80 ≠ 0) = fin ∧
        first &&& 0x0F = UInt8.ofNat opcode.val := by decide
  exact hall ⟨opcode, h⟩ fin

theorem second_byte (h : n < 128) :
    UInt8.ofNat n &&& 0x80 = 0 ∧ (UInt8.ofNat n &&& 0x7F).toNat = n := by
  have hall : ∀ n : Fin 128,
      UInt8.ofNat n.val &&& 0x80 = 0 ∧ (UInt8.ofNat n.val &&& 0x7F).toNat = n.val := by
    decide
  exact hall ⟨n, h⟩

theorem readExact_append {data : List UInt8} (h : data.length = n) (rest : List UInt8) :
    readExact n (data ++ rest) = (.ok data, rest) := by
  rw [readExact, if_neg (by rw [List.length_append]; omega), List.take_left' h, List.drop_left' h]

theorem foldl_octets (s : List UInt8) (acc : ℕ) :
    s.foldl (fun len b => len <<< 8 ||| b.toNat) acc =
      Printed.accumulate 256 acc (s.map UInt8.toNat) := by
  induction s generalizing acc with
  | nil => rfl
  | cons b s ih =>
    rw [List.foldl_cons, ih, List.map_cons, Printed.accumulate_cons,
      shiftLeft_or acc (show b.toNat < 2 ^ 8 from UInt8.toNat_lt b)]
    rfl

theorem readLength_lengthField {length : ℕ} (h : length < 2 ^ 63) :
    ∃ (n : ℕ) (more : List UInt8), lengthField length = UInt8.ofNat n :: more ∧ n < 128 ∧
      (length ≤ 125 → n ≤ 125) ∧ ∀ rest, readLength n (more ++ rest) = (.ok length, rest) := by
  rw [lengthField]
  by_cases hshort : length ≤ 125
  · rw [if_pos hshort]
    refine ⟨length, [], rfl, by omega, fun _ => hshort, fun rest => ?_⟩
    rw [readLength, if_neg (by omega), if_neg (by omega)]
    rfl
  · rw [if_neg hshort]
    by_cases htwo : length ≤ 0xFFFF
    · rw [if_pos htwo]
      refine ⟨126, bigEndian 2 length, rfl, by decide, fun hle => absurd hle hshort, fun rest => ?_⟩
      have hvalue : Printed.value 256 ((bigEndian 2 length).map UInt8.toNat) = length := by
        rw [toNat_bigEndian, Printed.value_fixed_of_lt (by omega)]
      have hpair : ((bigEndian 2 length).getD 0 0).toNat <<< 8 |||
          ((bigEndian 2 length).getD 1 0).toNat = length := by
        refine Eq.trans ?_ ((foldl_octets (bigEndian 2 length) 0).trans hvalue)
        change _ = ((0 <<< 8 ||| ((bigEndian 2 length).getD 0 0).toNat) <<< 8 |||
          ((bigEndian 2 length).getD 1 0).toNat)
        rw [Nat.zero_shiftLeft, Nat.zero_or]
      rw [readLength, if_pos rfl, readExact_append (length_bigEndian 2 length)]
      simp only [hpair]
    · rw [if_neg htwo]
      refine ⟨127, bigEndian 8 length, rfl, by decide, fun hle => absurd hle hshort, fun rest => ?_⟩
      have hvalue : (bigEndian 8 length).foldl (fun len b => len <<< 8 ||| b.toNat) 0 = length := by
        rw [foldl_octets, toNat_bigEndian]
        exact Printed.value_fixed_of_lt (by omega)
      rw [readLength, if_neg (by decide), if_pos rfl, readExact_append (length_bigEndian 8 length)]
      simp only [hvalue]

/-- A frame that a client reads. -/
structure Readable (f : Frame) : Prop where
  opcode : f.opcode ∈ [0x0, 0x1, 0x2, 0x8, 0x9, 0xA]
  control : 0x8 ≤ f.opcode → f.fin = true ∧ f.payload.length ≤ 125
  size : f.payload.length < 2 ^ 63

variable {f : Frame}

theorem Readable.lt (h : Readable f) : f.opcode < 16 := by grind [h.opcode]

theorem isDefinedOpcode_ofNat (h : opcode ∈ [0x0, 0x1, 0x2, 0x8, 0x9, 0xA]) :
    isDefinedOpcode (UInt8.ofNat opcode) = true := by
  simp only [List.mem_cons, List.not_mem_nil, or_false] at h
  obtain rfl | rfl | rfl | rfl | rfl | rfl := h <;> decide

theorem isControlOpcode_ofNat (h : opcode ∈ [0x0, 0x1, 0x2, 0x8, 0x9, 0xA]) :
    isControlOpcode (UInt8.ofNat opcode) = decide (0x8 ≤ opcode) := by
  simp only [List.mem_cons, List.not_mem_nil, or_false] at h
  obtain rfl | rfl | rfl | rfl | rfl | rfl := h <;> decide

variable {c : ClientWebSocket}

theorem readFrame_header (hsocket : c.socket_ = true) (hf : Readable f) (rest : List UInt8) :
    readFrame c (f.bytes ++ rest) =
      if kMaxFramePayloadBytes < f.payload.length then
        (.error (.webSocket .headerError
          "The WebSocket frame payload length exceeds the maximum allowed size."), f.payload ++ rest)
      else (.ok ⟨UInt8.ofNat f.opcode, f.fin, f.payload⟩, rest) := by
  obtain ⟨hreserved, hfin, hopcode⟩ := first_byte hf.lt f.fin
  obtain ⟨n, more, hlength, hn, hshort, hread⟩ := readLength_lengthField hf.size
  obtain ⟨hmasked, hlen⟩ := second_byte hn
  have hio : socketForIo c = .ok () := by rw [socketForIo, if_pos hsocket]
  have hfault : headerFault (UInt8.ofNat ((if f.fin then 0x80 else 0) + f.opcode)) (UInt8.ofNat n) =
      none := by
    simp only [headerFault, hopcode, hlen, isDefinedOpcode_ofNat hf.opcode,
      isControlOpcode_ofNat hf.opcode]
    rw [if_neg (not_not.mpr hreserved), if_neg (by decide), if_neg (not_not.mpr hmasked), hfin]
    by_cases hcontrol : 0x8 ≤ f.opcode
    · obtain ⟨hfinal, hsmall⟩ := hf.control hcontrol
      have hn125 := hshort hsmall
      rw [hfinal, if_neg (by simp), if_neg (by simpa using fun _ => hn125)]
    · rw [if_neg (by simp [hcontrol]), if_neg (by simp [hcontrol])]
  have hbytes : f.bytes ++ rest = [UInt8.ofNat ((if f.fin then 0x80 else 0) + f.opcode),
      UInt8.ofNat n] ++ (more ++ (f.payload ++ rest)) := by
    rw [Frame.bytes, hlength]
    simp
  have hheader : readExact 2 ([UInt8.ofNat ((if f.fin then 0x80 else 0) + f.opcode),
      UInt8.ofNat n] ++ (more ++ (f.payload ++ rest))) = (.ok _, more ++ (f.payload ++ rest)) :=
    readExact_append rfl _
  have hpayload : readExact f.payload.length (f.payload ++ rest) = (.ok f.payload, rest) :=
    readExact_append rfl rest
  rw [readFrame, hio, hbytes]
  simp only [hheader, List.getD_cons_zero, List.getD_cons_succ, hfault, hlen, hread, hpayload, hfin,
    hopcode]

/-- **A frame is read as it was written.** -/
theorem readFrame_bytes (hsocket : c.socket_ = true)
    (hf : Readable f) (hlength : f.payload.length ≤ kMaxFramePayloadBytes) (rest : List UInt8) :
    readFrame c (f.bytes ++ rest) = (.ok ⟨UInt8.ofNat f.opcode, f.fin, f.payload⟩, rest) := by
  rw [readFrame_header hsocket hf, if_neg (by omega)]

theorem readFrame_nil (hsocket : c.socket_ = true) :
    readFrame c [] = (.error (.webSocket .connectionClosedPrematurely
      "The remote endpoint closed the connection."), []) := by
  rw [readFrame, socketForIo, if_pos hsocket]
  rfl

variable {first second : UInt8}

theorem headerFault_of_bad (h : BadHeader first second) :
    ∃ message, headerFault first second = some (.webSocket .headerError message) := by
  have hopcode : ∀ first, isDefinedOpcode (first &&& 0x0F) =
      decide ((first &&& 0x0F).toNat ∈ [0x0, 0x1, 0x2, 0x8, 0x9, 0xA]) := by decide
  have hcontrol : ∀ first, isControlOpcode (first &&& 0x0F) =
      decide (0x8 ≤ (first &&& 0x0F).toNat) := by decide
  simp only [headerFault, hopcode, hcontrol]
  split
  · exact ⟨_, rfl⟩
  split
  · exact ⟨_, rfl⟩
  split
  · exact ⟨_, rfl⟩
  split
  · exact ⟨_, rfl⟩
  split
  · exact ⟨_, rfl⟩
  rename_i hreserved hdefined hmasked hfragmented hlong
  exfalso
  simp only [Bool.not_eq_true', decide_eq_false_iff_not, not_not, Bool.and_eq_true, decide_eq_true_eq,
    not_and, not_lt] at hreserved hdefined hmasked hfragmented hlong
  rcases h with h | h | h | ⟨hlarge, h | h⟩
  · exact h hreserved
  · exact h hdefined
  · exact h hmasked
  · have hfin := hfragmented hlarge
    simp [h] at hfin
  · omega

theorem readFrame_bad (hsocket : c.socket_ = true)
    (h : BadHeader first second) (rest : List UInt8) :
    ∃ message, readFrame c (first :: second :: rest) =
      (.error (.webSocket .headerError message), rest) := by
  obtain ⟨message, hfault⟩ := headerFault_of_bad h
  have hread : readExact 2 (first :: second :: rest) = (.ok [first, second], rest) :=
    @readExact_append 2 [first, second] rfl rest
  refine ⟨message, ?_⟩
  rw [readFrame, socketForIo, if_pos hsocket]
  simp only [hread, List.getD_cons_zero, List.getD_cons_succ, hfault]

theorem isValidReceivedCloseCode_iff (code : ℕ) :
    isValidReceivedCloseCode code = true ↔ CloseCode code := by
  simp only [isValidReceivedCloseCode, CloseCode, Bool.or_eq_true, decide_eq_true_eq, or_assoc]

theorem parseClosePayload_eq {payload : List UInt8} {status : Option ℕ}
    {reason : Option (List UInt8)} (h : ClosePayload payload status reason) :
    parseClosePayload payload = .ok (status, reason) ∧ payload.length ≤ 125 := by
  have hcode : ∀ {code : ℕ}, CloseCode code → ∃ high low, bigEndian 2 code = [high, low] ∧
      high.toNat <<< 8 ||| low.toNat = code := by
    intro code hcode
    refine ⟨_, _, rfl, ?_⟩
    have hvalue : Printed.value 256 ((bigEndian 2 code).map UInt8.toNat) = code := by
      rw [toNat_bigEndian, Printed.value_fixed_of_lt]
      unfold CloseCode at hcode
      omega
    refine Eq.trans ?_ ((foldl_octets (bigEndian 2 code) 0).trans hvalue)
    change _ = ((0 <<< 8 ||| _) <<< 8 ||| _)
    rw [Nat.zero_shiftLeft, Nat.zero_or]
  cases h with
  | empty => exact ⟨rfl, by decide⟩
  | status hvalid =>
    obtain ⟨high, low, hbytes, hvalue⟩ := hcode hvalid
    rw [hbytes]
    refine ⟨?_, by simp⟩
    simp only [parseClosePayload, hvalue, (isValidReceivedCloseCode_iff _).mpr hvalid]
    rfl
  | reason hvalid hne htext hshort =>
    obtain ⟨high, low, hbytes, hvalue⟩ := hcode hvalid
    rw [hbytes, List.cons_append, List.cons_append, List.nil_append]
    refine ⟨?_, by simp only [List.length_cons]; omega⟩
    simp only [parseClosePayload, hvalue, (isValidReceivedCloseCode_iff _).mpr hvalid,
      (isValidUtf8_iff _).mpr htext, List.isEmpty_eq_false_iff.mpr hne]
    rfl

end SharpRuntime.Analysis.WebSocketServerFrames
