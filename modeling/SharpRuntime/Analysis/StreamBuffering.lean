import SharpRuntime.Interface.BinaryFormat

/-!
# A buffered stream is the stream behind it

At any moment a buffered stream stands for one plain stream, its direct stream: the stream behind
it moved back over the bytes read ahead, or with the waiting bytes written.  No internal move of
the buffer changes the direct stream, and every call does to it what the call does to a plain
stream, with the same answer.
-/

set_option autoImplicit false

namespace SharpRuntime.Analysis.StreamBuffering

open Machine Model Model.BufferedStream
open Interface (ValidRegion)
open RefinesAt
open Tape
open BufferedStream

/-! ## The direct stream -/

/-- What holds of a buffered stream between calls. -/
structure Coherent (s : BufferedStream) : Prop where
  isOpen : s.closed_ = false
  allocated : s.buffer_ = [] ∨ s.buffer_.length = s.bufferSize_
  readPos_le : s.readPos_ ≤ s.readLen_
  readLen_le : s.readLen_ ≤ s.inner_.position
  readLen_le_buffer : s.readLen_ ≤ s.buffer_.length
  /-- The bytes read ahead are those in front of the position of the stream behind. -/
  ahead : s.buffer_.take s.readLen_ =
    (s.inner_.moveTo (s.inner_.position - s.readLen_)).peek s.readLen_
  writePos_le : s.writePos_ ≤ s.buffer_.length
  exclusive : s.writePos_ = 0 ∨ s.readLen_ = 0

def direct (s : BufferedStream) : ByteStream :=
  (s.inner_.moveTo (s.inner_.position - (s.readLen_ - s.readPos_))).put
    (s.buffer_.take s.writePos_)

def StandsFor (s : BufferedStream) (t : ByteStream) : Prop := Coherent s ∧ direct s = t

section State

variable {s : BufferedStream}

theorem direct_of_writePos (h : s.writePos_ = 0) :
    direct s = s.inner_.moveTo (s.inner_.position - (s.readLen_ - s.readPos_)) := by
  rw [direct, h, List.take_zero, put_nil]

theorem direct_of_readLen (h : s.readLen_ = 0) :
    direct s = s.inner_.put (s.buffer_.take s.writePos_) := by
  rw [direct, h, Nat.zero_sub, Nat.sub_zero, moveTo_position]

theorem direct_of_empty (hread : s.readPos_ = s.readLen_) (hwrite : s.writePos_ = 0) :
    direct s = s.inner_ := by
  rw [direct_of_writePos hwrite, hread, Nat.sub_self, Nat.sub_zero, moveTo_position]

theorem Coherent.writePos_le_bufferSize (h : Coherent s) : s.writePos_ ≤ s.bufferSize_ := by
  have hle := h.writePos_le
  rcases h.allocated with hnil | hlength
  · rw [hnil, List.length_nil] at hle
    omega
  · rw [hlength] at hle
    exact hle

theorem Coherent.readPos_eq_zero (h : Coherent s) (hread : s.readLen_ = 0) : s.readPos_ = 0 :=
  Nat.le_zero.mp (hread ▸ h.readPos_le)

theorem Coherent.readLen_of_writing (h : Coherent s) (hwrite : 0 < s.writePos_) :
    s.readLen_ = 0 := by
  rcases h.exclusive with hzero | hzero
  · omega
  · exact hzero

theorem coherent_of_readLen (hopen : s.closed_ = false)
    (halloc : s.buffer_ = [] ∨ s.buffer_.length = s.bufferSize_) (hpos : s.readPos_ = 0)
    (hread : s.readLen_ = 0) (hwrite : s.writePos_ ≤ s.buffer_.length) : Coherent s where
  isOpen := hopen
  allocated := halloc
  readPos_le := by rw [hpos, hread]
  readLen_le := by rw [hread]; exact Nat.zero_le _
  readLen_le_buffer := by rw [hread]; exact Nat.zero_le _
  ahead := by rw [hread, List.take_zero, Tape.peek, List.take_zero]
  writePos_le := hwrite
  exclusive := Or.inr hread

theorem of_new {t : ByteStream} {bufferSize : ℤ} (h : new t bufferSize = .ok s) :
    StandsFor s t := by
  rw [new] at h
  split at h
  · cases h
  · obtain rfl := Except.ok.inj h
    exact ⟨coherent_of_readLen rfl (Or.inl rfl) rfl rfl (Nat.zero_le _), direct_of_empty rfl rfl⟩

end State

/-! ## Internal moves -/

section Moves

variable {s : BufferedStream}

variable {t : ByteStream}

theorem inner_ok {α : Type} {p : Program StreamException ByteStream α} {a : α}
    (h : p s.inner_ = .ok a t) : inner p s = .ok a { s with inner_ := t } :=
  onField_ok h

theorem inner_error {α : Type} {p : Program StreamException ByteStream α} {e : StreamException}
    (h : p s.inner_ = .error e t) :
    inner p s = .error e { s with inner_ := t } :=
  onField_error h

theorem checkRegion_valid {σ : Type} {buffer : Option (List UInt8)} {offset : ℤ}
    (hbuffer : buffer ≠ none) (hoffset : 0 ≤ offset) (count : ℕ) :
    (checkRegion buffer offset count : Program StreamException σ Unit) = pure () := by
  rw [checkRegion, if_neg hbuffer, if_neg (by omega), if_neg (by omega)]

theorem write_valid {buffer : Option (List UInt8)} {offset : ℤ} (hbuffer : buffer ≠ none)
    (hoffset : 0 ≤ offset) (count : ℕ) (t : ByteStream) :
    ByteStream.write buffer offset count t = .ok () (t.put (regionBytes buffer offset count)) := by
  rw [ByteStream.write, checkRegion_valid hbuffer hoffset]
  rfl

theorem read_valid {buffer : Option (List UInt8)} {offset : ℤ} (hbuffer : buffer ≠ none)
    (hoffset : 0 ≤ offset) (count : ℕ) (t : ByteStream) :
    ByteStream.read buffer offset count t
      = .ok (t.peek count) (t.skip (t.peek count).length) := by
  rw [ByteStream.read, checkRegion_valid hbuffer hoffset]
  rfl

theorem write_own (buffer : List UInt8) (n : ℕ) (t : ByteStream) :
    ByteStream.write (some buffer) 0 n t = .ok () (t.put (buffer.take n)) :=
  write_valid (by simp) le_rfl n t

def flushed (s : BufferedStream) : BufferedStream :=
  { s with inner_ := s.inner_.put (s.buffer_.take s.writePos_), writePos_ := 0 }

def rewound (s : BufferedStream) : BufferedStream :=
  { s with
    inner_ := s.inner_.moveTo (s.inner_.position - (s.readLen_ - s.readPos_))
    readPos_ := 0
    readLen_ := 0 }

theorem ensureNotClosed_eq (h : Coherent s) : ensureNotClosed s = .ok () s := by
  rw [ensureNotClosed, get_bind, if_neg (by rw [h.isOpen]; decide), pure_apply]

theorem getCanSeekProperty_eq (s : BufferedStream) : getCanSeekProperty s = .ok true s := rfl

theorem getCanWriteProperty_eq (s : BufferedStream) : getCanWriteProperty s = .ok true s := rfl

theorem flushWrite_eq (s : BufferedStream) : flushWrite s = .ok () (flushed s) := by
  rw [flushWrite, get_bind]
  by_cases hwrite : s.writePos_ > 0
  · rw [if_pos hwrite, bind_ok (inner_ok (write_own _ _ _))]
    rfl
  · have hzero : s.writePos_ = 0 := by omega
    rw [if_neg hwrite, pure_apply, flushed, hzero, List.take_zero, put_nil, ← hzero]

theorem coherent_flushed (h : Coherent s) : Coherent (flushed s) := by
  rcases Nat.eq_zero_or_pos s.writePos_ with hzero | hpos
  · have hsame : flushed s = s := by
      rw [flushed, hzero, List.take_zero, put_nil, ← hzero]
    rw [hsame]
    exact h
  · have hread := h.readLen_of_writing hpos
    exact coherent_of_readLen h.isOpen h.allocated (h.readPos_eq_zero hread) hread (Nat.zero_le _)

theorem direct_flushed (h : Coherent s) : direct (flushed s) = direct s := by
  rcases Nat.eq_zero_or_pos s.writePos_ with hzero | hpos
  · rw [flushed, hzero, List.take_zero, put_nil, ← hzero]
  · have hread := h.readLen_of_writing hpos
    have hempty : direct (flushed s) = (flushed s).inner_ :=
      direct_of_empty ((h.readPos_eq_zero hread).trans hread.symm) rfl
    rw [hempty, direct_of_readLen hread, flushed]

theorem seek_back {p : ℕ} {offset : ℤ} (h : (t.position : ℤ) + offset = p) :
    ByteStream.seek offset .current t = .ok (p : ℤ) (t.moveTo p) := by
  have hnot : ¬ ((t.position : ℤ) + offset < 0) := by omega
  change (if (t.position : ℤ) + offset < 0 then _ else _ :
    Program StreamException ByteStream ℤ) t = _
  rw [if_neg hnot, h, ByteStream.setPositionProperty, if_neg (by omega), modify_bind, pure_apply,
    Int.toNat_natCast]

theorem flushRead_eq (h : Coherent s) : flushRead s = .ok () (rewound s) := by
  have hle := h.readPos_le
  have hlen := h.readLen_le
  rw [flushRead, get_bind]
  by_cases hread : s.readPos_ ≠ s.readLen_
  · have hback : (s.inner_.position : ℤ) + ((s.readPos_ : ℤ) - s.readLen_)
        = ((s.inner_.position - (s.readLen_ - s.readPos_) : ℕ) : ℤ) := by omega
    rw [if_pos hread, bind_ok (inner_ok (seek_back hback))]
    rfl
  · have heq : s.readLen_ - s.readPos_ = 0 := by omega
    rw [if_neg hread, rewound, heq, Nat.sub_zero, moveTo_position]
    rfl

theorem clearReadBufferBeforeWrite_eq (h : Coherent s) :
    clearReadBufferBeforeWrite s = .ok () (rewound s) := by
  rw [clearReadBufferBeforeWrite, get_bind]
  by_cases hread : s.readPos_ = s.readLen_
  · rw [if_pos hread, rewound, hread, Nat.sub_self, Nat.sub_zero, moveTo_position]
    rfl
  · rw [if_neg hread]
    exact flushRead_eq h

theorem coherent_rewound (h : Coherent s) : Coherent (rewound s) :=
  coherent_of_readLen h.isOpen h.allocated rfl rfl h.writePos_le

theorem direct_rewound (s : BufferedStream) : direct (rewound s) = direct s := by rfl

end Moves

/-! ## Reading -/

section Read

variable {s : BufferedStream}

def taken (n : ℕ) (s : BufferedStream) : BufferedStream := { s with readPos_ := s.readPos_ + n }

theorem readFromBuffer_eq {dst : Option (List UInt8)} {offset : ℤ} (hdst : dst ≠ none)
    (hoffset : 0 ≤ offset) (count : ℕ) (s : BufferedStream) :
    readFromBuffer dst offset count s
      = .ok ((s.buffer_.drop s.readPos_).take (min (s.readLen_ - s.readPos_) count))
          (taken (min (s.readLen_ - s.readPos_) count) s) := by
  rw [readFromBuffer, get_bind]
  by_cases havailable : (s.readLen_ : ℤ) - s.readPos_ ≤ 0
  · have hzero : min (s.readLen_ - s.readPos_) count = 0 := by omega
    rw [if_pos havailable, hzero]
    rfl
  · have hn : min ((s.readLen_ : ℤ) - s.readPos_) count
        = (min (s.readLen_ - s.readPos_) count : ℕ) := by omega
    have hcopies (n : ℕ) : Copies dst offset n := by
      rcases Nat.eq_zero_or_pos n with hzero | hpos
      · exact .inl (congrArg Nat.cast hzero)
      · exact .inr ⟨Int.natCast_pos.mpr hpos, hdst, hoffset⟩
    rw [if_neg havailable, hn, if_pos (hcopies _)]
    rfl

variable {n : ℕ}

theorem take_drop_buffer (h : Coherent s) (hn : n ≤ s.readLen_ - s.readPos_) :
    (s.buffer_.drop s.readPos_).take n = (direct s).peek n := by
  rcases h.exclusive with hwrite | hread
  · have hle := h.readPos_le
    have hback := h.readLen_le
    have hstart : s.inner_.position - (s.readLen_ - s.readPos_)
        = s.inner_.position - s.readLen_ + s.readPos_ := by omega
    have hcut : (s.buffer_.drop s.readPos_).take n
        = ((s.buffer_.take s.readLen_).drop s.readPos_).take n := by
      rw [List.drop_take, List.take_take, Nat.min_eq_left hn]
    simp [hcut, h.ahead, Tape.peek, List.drop_take, List.take_take, Nat.min_eq_left hn,
      direct_of_writePos hwrite, Tape.rest, List.drop_drop, Tape.content_moveTo,
      Tape.position_moveTo, hstart]
  · have hzero : n = 0 := by omega
    rw [hzero, List.take_zero, Tape.peek, List.take_zero]

theorem length_take_drop_buffer (h : Coherent s) (hn : n ≤ s.readLen_ - s.readPos_) :
    ((s.buffer_.drop s.readPos_).take n).length = n := by
  have hle := h.readPos_le
  have hbuffer := h.readLen_le_buffer
  grind

theorem coherent_taken (h : Coherent s) (hn : n ≤ s.readLen_ - s.readPos_) :
    Coherent (taken n s) where
  isOpen := h.isOpen
  allocated := h.allocated
  readPos_le := by
    have hle := h.readPos_le
    change s.readPos_ + n ≤ s.readLen_
    omega
  readLen_le := h.readLen_le
  readLen_le_buffer := h.readLen_le_buffer
  ahead := h.ahead
  writePos_le := h.writePos_le
  exclusive := h.exclusive

theorem direct_taken (h : Coherent s) (hn : n ≤ s.readLen_ - s.readPos_) :
    direct (taken n s) = (direct s).skip n := by
  rcases h.exclusive with hwrite | hread
  · have hle := h.readPos_le
    have hback := h.readLen_le
    have hposition : s.inner_.position - (s.readLen_ - (s.readPos_ + n))
        = s.inner_.position - (s.readLen_ - s.readPos_) + n := by omega
    have htaken : (taken n s).writePos_ = 0 := hwrite
    rw [direct_of_writePos hwrite, direct_of_writePos htaken]
    change s.inner_.moveTo (s.inner_.position - (s.readLen_ - (s.readPos_ + n))) = _
    rw [hposition]
    rfl
  · have hzero : n = 0 := by omega
    rw [hzero, skip_zero]
    rfl

def allocated (s : BufferedStream) : BufferedStream :=
  if s.buffer_ = [] then { s with buffer_ := List.replicate s.bufferSize_ 0 } else s

theorem ensureBufferAllocated_eq (s : BufferedStream) :
    ensureBufferAllocated s = .ok () (allocated s) := rfl

theorem inner_allocated (s : BufferedStream) : (allocated s).inner_ = s.inner_ := by
  rw [allocated]
  split <;> rfl

theorem bufferSize_allocated (s : BufferedStream) : (allocated s).bufferSize_ = s.bufferSize_ := by
  rw [allocated]
  split <;> rfl

theorem writePos_allocated (s : BufferedStream) : (allocated s).writePos_ = s.writePos_ := by
  rw [allocated]
  split <;> rfl

theorem readLen_allocated (s : BufferedStream) : (allocated s).readLen_ = s.readLen_ := by
  rw [allocated]
  split <;> rfl

theorem length_allocated (h : Coherent s) : (allocated s).buffer_.length = s.bufferSize_ := by
  rw [allocated]
  by_cases hnil : s.buffer_ = []
  · grind
  · rw [if_neg hnil]
    exact h.allocated.resolve_left hnil

theorem coherent_allocated (h : Coherent s) :
    Coherent (allocated s) ∧ direct (allocated s) = direct s := by
  rw [allocated]
  by_cases hnil : s.buffer_ = []
  · have hread : s.readLen_ = 0 := by
      have hle := h.readLen_le_buffer
      grind
    have hwrite : s.writePos_ = 0 := by
      have hle := h.writePos_le
      grind
    rw [if_pos hnil]
    constructor
    · refine coherent_of_readLen h.isOpen (Or.inr List.length_replicate)
        (h.readPos_eq_zero hread) hread ?_
      simp [hwrite]
    · rw [direct_of_writePos hwrite]
      exact direct_of_writePos hwrite
  · rw [if_neg hnil]
    exact ⟨h, rfl⟩

def filled (s : BufferedStream) : BufferedStream :=
  { s with
    inner_ := s.inner_.skip (s.inner_.peek s.bufferSize_).length
    buffer_ := overlay (allocated s).buffer_ 0 (s.inner_.peek s.bufferSize_)
    readLen_ := (s.inner_.peek s.bufferSize_).length }

theorem fillBuffer_eq (s : BufferedStream) : fillBuffer s = .ok () (filled s) := by
  have hread : ByteStream.read (some (allocated s).buffer_) 0 (allocated s).bufferSize_
      (allocated s).inner_
      = .ok (s.inner_.peek s.bufferSize_) (s.inner_.skip (s.inner_.peek s.bufferSize_).length) := by
    rw [inner_allocated, bufferSize_allocated]
    exact read_valid (by simp) le_rfl _ _
  rw [fillBuffer, bind_ok (ensureBufferAllocated_eq s), get_bind, bind_ok (inner_ok hread),
    modify_apply, filled]
  rw [allocated]
  split <;> rfl

theorem coherent_filled (h : Coherent s) (hread : s.readLen_ = 0) (hwrite : s.writePos_ = 0) :
    Coherent (filled s) ∧ direct (filled s) = direct s := by
  have hpos := h.readPos_eq_zero hread
  have hlength := length_allocated h
  have hbytes : (s.inner_.peek s.bufferSize_).length ≤ s.bufferSize_ := List.length_take_le _ _
  have hbuffer : (filled s).buffer_.length = s.bufferSize_ := by
    change (overlay _ _ _).length = _
    rw [length_overlay, hlength]
    omega
  have hback : (filled s).inner_.position - (filled s).readLen_ = s.inner_.position :=
    Nat.add_sub_cancel _ _
  have hfront : (filled s).buffer_.take (filled s).readLen_ = s.inner_.peek s.bufferSize_ := by
    have hdrop := drop_overlay (allocated s).buffer_ 0 (s.inner_.peek s.bufferSize_)
    rw [List.drop_zero] at hdrop
    change (overlay _ _ _).take (s.inner_.peek s.bufferSize_).length = _
    rw [hdrop, List.take_left]
  refine ⟨⟨h.isOpen, Or.inr hbuffer, ?_, Nat.le_add_left _ _, ?_, ?_, ?_, Or.inl hwrite⟩, ?_⟩
  · change s.readPos_ ≤ _
    rw [hpos]
    exact Nat.zero_le _
  · rw [hbuffer]
    exact hbytes
  · rw [hfront, hback]
    change s.inner_.peek s.bufferSize_
      = s.inner_.rest.take (s.inner_.rest.take s.bufferSize_).length
    rw [Tape.peek, List.length_take, ← List.take_take, List.take_length]
  · change s.writePos_ ≤ _
    rw [hwrite]
    exact Nat.zero_le _
  · have hsame : s.inner_.moveTo s.inner_.position
        = (filled s).inner_.moveTo s.inner_.position := rfl
    rw [direct_of_writePos hwrite, direct_of_writePos (s := filled s) hwrite, hread, Nat.zero_sub,
      Nat.sub_zero, hsame, ← hback]
    have hzero : (filled s).readPos_ = 0 := hpos
    rw [hzero, Nat.sub_zero]

/-- The bytes read ahead are given back, the waiting bytes are written. -/
def settled (s : BufferedStream) : BufferedStream := flushed (rewound s)

theorem coherent_settled (h : Coherent s) : Coherent (settled s) :=
  coherent_flushed (coherent_rewound h)

theorem direct_settled (h : Coherent s) : direct (settled s) = direct s := by
  rw [settled, direct_flushed (coherent_rewound h), direct_rewound]

theorem inner_settled (h : Coherent s) : (settled s).inner_ = direct s := by
  rw [← direct_settled h]
  exact (direct_of_empty rfl rfl).symm

variable {buffer : Option (List UInt8)} {offset : ℤ} {fromBuffer : List UInt8}

theorem readRest_eq (hused : s.readPos_ = s.readLen_) (count : ℤ) :
    readRest buffer offset count fromBuffer s
      = (if (s.bufferSize_ : ℤ) ≤ count then (do
          let bytes ← inner (ByteStream.read buffer offset count)
          pure (fromBuffer ++ bytes))
        else (do
          fillBuffer
          let bytes ← readFromBuffer buffer offset count
          pure (fromBuffer ++ bytes))) (settled s) := by
  have hdrop : dropRead s = .ok () (rewound s) := by
    rw [rewound, hused, Nat.sub_self, Nat.sub_zero, moveTo_position]
    rfl
  rw [readRest, bind_ok hdrop, bind_ok (flushWrite_eq _), get_bind]
  rfl

theorem readRest_ok (fromBuffer : List UInt8) (h : Coherent s)
    (hused : s.readPos_ = s.readLen_) (hbuffer : buffer ≠ none)
    (hoffset : 0 ≤ offset) (count : ℕ) :
    ∃ s', readRest buffer offset count fromBuffer s
        = .ok (fromBuffer ++ (direct s).peek count) s' ∧
      Coherent s' ∧ direct s' = (direct s).skip ((direct s).peek count).length := by
  have hsettled := coherent_settled h
  have hdirect := direct_settled h
  have hinner := inner_settled h
  rw [readRest_eq hused]
  by_cases hlarge : (s.bufferSize_ : ℤ) ≤ count
  · -- a request as large as the buffer goes past it
    have hbytes : ByteStream.read buffer offset count (settled s).inner_
        = .ok ((direct s).peek count) ((direct s).skip ((direct s).peek count).length) := by
      rw [hinner]
      exact read_valid hbuffer hoffset count _
    refine ⟨{ settled s with inner_ := (direct s).skip ((direct s).peek count).length }, ?_, ?_,
      ?_⟩
    · rw [if_pos hlarge, bind_ok (inner_ok hbytes), pure_apply]
    · exact coherent_of_readLen hsettled.isOpen hsettled.allocated rfl rfl hsettled.writePos_le
    · exact direct_of_empty rfl rfl
  · obtain ⟨hfilled, hview⟩ := coherent_filled hsettled rfl rfl
    have hn : min ((filled (settled s)).readLen_ - (filled (settled s)).readPos_) count
        ≤ (filled (settled s)).readLen_ - (filled (settled s)).readPos_ := Nat.min_le_left _ _
    have hlength : (filled (settled s)).readLen_
        = min s.bufferSize_ (settled s).inner_.rest.length := List.length_take
    have hzero : (filled (settled s)).readPos_ = 0 := rfl
    have hread : (direct s).peek (min ((filled (settled s)).readLen_ -
        (filled (settled s)).readPos_) count) = (direct s).peek count := by
      simp [hzero, hlength, hinner, Tape.peek]
      omega
    rw [hdirect] at hview
    refine ⟨taken (min ((filled (settled s)).readLen_ - (filled (settled s)).readPos_) count)
      (filled (settled s)), ?_, coherent_taken hfilled hn, ?_⟩
    · rw [if_neg hlarge, bind_ok (fillBuffer_eq _),
        bind_ok (readFromBuffer_eq hbuffer hoffset count _), take_drop_buffer hfilled hn, hview,
        hread, pure_apply]
    · rw [direct_taken hfilled hn, hview, ← hread, ← hview, ← take_drop_buffer hfilled hn,
        length_take_drop_buffer hfilled hn]

theorem read_ok (h : Coherent s) (hbuffer : buffer ≠ none) (hoffset : 0 ≤ offset) (count : ℕ) :
    ∃ s', read buffer offset count s = .ok ((direct s).peek count) s' ∧ Coherent s' ∧
      direct s' = (direct s).skip ((direct s).peek count).length := by
  have hn : min (s.readLen_ - s.readPos_) count ≤ s.readLen_ - s.readPos_ := Nat.min_le_left _ _
  have hbytes := take_drop_buffer h hn
  have hlength := length_take_drop_buffer h hn
  rw [BufferedStream.read, bind_ok (ensureNotClosed_eq h),
    bind_ok (readFromBuffer_eq hbuffer hoffset count s)]
  rw [hlength, hbytes]
  by_cases hall : min (s.readLen_ - s.readPos_) count = count
  · rw [hall] at hn hbytes hlength ⊢
    refine ⟨taken count s, ?_, coherent_taken h hn, ?_⟩
    · rw [if_pos rfl, pure_apply]
    · rw [direct_taken h hn, ← hbytes, hlength]
  · -- the buffer is used up: it is dropped, or its waiting bytes are written
    have hrest : min (s.readLen_ - s.readPos_) count = s.readLen_ - s.readPos_ := by omega
    rw [hrest] at hn hbytes hlength hall ⊢
    have hused : (taken (s.readLen_ - s.readPos_) s).readPos_
        = (taken (s.readLen_ - s.readPos_) s).readLen_ := Nat.add_sub_cancel' h.readPos_le
    have hnot : ¬ ((s.readLen_ - s.readPos_ : ℕ) : ℤ) = count := by omega
    have hleft : (count : ℤ) - (s.readLen_ - s.readPos_ : ℕ)
        = (count - (s.readLen_ - s.readPos_) : ℕ) := by omega
    obtain ⟨s', hrun, hcoherent, hdirect⟩ :=
      readRest_ok ((direct s).peek (s.readLen_ - s.readPos_)) (coherent_taken h hn) hused hbuffer
        (show 0 ≤ offset + (s.readLen_ - s.readPos_ : ℕ) by omega)
        (count - (s.readLen_ - s.readPos_))
    have hcount : s.readLen_ - s.readPos_ + (count - (s.readLen_ - s.readPos_)) = count := by omega
    have hjoin := peek_add (direct s) (s.readLen_ - s.readPos_)
      (count - (s.readLen_ - s.readPos_))
    rw [hcount] at hjoin
    rw [direct_taken h hn] at hrun hdirect
    refine ⟨s', ?_, hcoherent, ?_⟩
    · rw [if_neg hnot, hleft, hrun, hjoin]
    · rw [hdirect, skip_skip, hjoin, List.length_append, ← hbytes, hlength]

end Read

/-! ## Writing -/

section Write

variable {s : BufferedStream}

/-- The state after `bytes` have been copied behind the waiting bytes. -/
def copied (bytes : List UInt8) (s : BufferedStream) : BufferedStream :=
  { s with
    buffer_ := overlay s.buffer_ s.writePos_ bytes
    writePos_ := s.writePos_ + bytes.length }

theorem take_copied (bytes : List UInt8) (h : s.writePos_ ≤ s.buffer_.length) :
    (copied bytes s).buffer_.take (copied bytes s).writePos_
      = s.buffer_.take s.writePos_ ++ bytes := by
  have hle : s.writePos_ + bytes.length ≤ (overlay s.buffer_ s.writePos_ bytes).length := by
    rw [length_overlay]
    exact Nat.le_max_right _ _
  change (overlay s.buffer_ s.writePos_ bytes).take (s.writePos_ + bytes.length) = _
  rw [← zeroPadded_of_le hle, zeroPadded_overlay, zeroPadded_of_le h]

variable {bytes : List UInt8}

theorem coherent_copied (h : Coherent s) (hread : s.readLen_ = 0)
    (hlength : s.buffer_.length = s.bufferSize_)
    (hroom : s.writePos_ + bytes.length ≤ s.bufferSize_) :
    Coherent (copied bytes s) ∧ direct (copied bytes s) = (direct s).put bytes := by
  have hbuffer : (copied bytes s).buffer_.length = s.bufferSize_ := by
    change (overlay _ _ _).length = _
    rw [length_overlay, hlength]
    exact Nat.max_eq_left hroom
  constructor
  · refine coherent_of_readLen h.isOpen (Or.inr hbuffer) (h.readPos_eq_zero hread) hread ?_
    rw [hbuffer]
    exact hroom
  · have hcopied : (copied bytes s).readLen_ = 0 := hread
    rw [direct_of_readLen hread, direct_of_readLen hcopied, take_copied bytes h.writePos_le,
      put_put]
    rfl

/-- What a state has to be for the next bytes to be taken. -/
structure Writing (s : BufferedStream) : Prop extends Coherent s where
  nothingRead : s.readLen_ = 0

theorem Writing.withBuffer (h : Writing s) : Writing (allocated s) :=
  ⟨(coherent_allocated h.toCoherent).1, (readLen_allocated s).trans h.nothingRead⟩

theorem writing_flushed (h : Writing s) : Writing (flushed s) :=
  ⟨coherent_flushed h.toCoherent, h.nothingRead⟩

theorem writing_copied (h : Writing s) (hlength : s.buffer_.length = s.bufferSize_)
    (hroom : s.writePos_ + bytes.length ≤ s.bufferSize_) :
    Writing (copied bytes s) :=
  ⟨(coherent_copied h.toCoherent h.nothingRead hlength hroom).1, h.nothingRead⟩

variable {buffer : Option (List UInt8)} {offset : ℤ}

/-- The bytes of a region are as many as its count. -/
def Fits (buffer : Option (List UInt8)) (offset : ℤ) (count : ℕ) : Prop :=
  offset.toNat + count ≤ (buffer.getD []).length

theorem length_regionBytes {n : ℕ} (hfits : Fits buffer offset n) :
    (regionBytes buffer offset n).length = n := by
  rw [Fits] at hfits
  rw [regionBytes, List.length_take, List.length_drop, Int.toNat_natCast]
  omega

theorem regionBytes_add (hoffset : 0 ≤ offset) (m n : ℕ) :
    regionBytes buffer offset (m + n : ℕ)
      = regionBytes buffer offset m ++ regionBytes buffer (offset + m) n := by
  have hstart : (offset + m).toNat = offset.toNat + m := by omega
  rw [regionBytes, regionBytes, regionBytes, hstart, Int.toNat_natCast, Int.toNat_natCast,
    Int.toNat_natCast, List.take_add, List.drop_drop]

theorem copyToBuffer_ok {n : ℕ} (h : Writing s) (hbuffer : buffer ≠ none) (hoffset : 0 ≤ offset)
    (hfits : Fits buffer offset n) (hroom : s.writePos_ + n ≤ s.bufferSize_) :
    ∃ s', copyToBuffer buffer offset n s = .ok () s' ∧ Writing s' ∧
      direct s' = (direct s).put (regionBytes buffer offset n) ∧
      s'.bufferSize_ = s.bufferSize_ ∧ s'.writePos_ = s.writePos_ + n := by
  have hbytes := length_regionBytes hfits
  rw [copyToBuffer]
  by_cases hsome : (n : ℤ) > 0
  · have hlength : (allocated s).buffer_.length = (allocated s).bufferSize_ := by
      rw [length_allocated h.toCoherent, bufferSize_allocated]
    have hroom' : (allocated s).writePos_ + (regionBytes buffer offset n).length
        ≤ (allocated s).bufferSize_ := by
      rw [writePos_allocated, bufferSize_allocated, hbytes]
      exact hroom
    have hcopies : Copies buffer offset n := .inr ⟨hsome, hbuffer, hoffset⟩
    refine ⟨copied (regionBytes buffer offset n) (allocated s), ?_,
      writing_copied h.withBuffer hlength hroom', ?_, ?_, ?_⟩
    · rw [if_pos hsome, bind_ok (ensureBufferAllocated_eq s), if_pos hcopies, modify_apply, copied,
        hbytes]
      rfl
    · rw [(coherent_copied h.withBuffer.toCoherent h.withBuffer.nothingRead hlength hroom').2,
        (coherent_allocated h.toCoherent).2]
    · exact bufferSize_allocated s
    · change (allocated s).writePos_ + (regionBytes buffer offset n).length = _
      rw [writePos_allocated, hbytes]
  · have hzero : n = 0 := by omega
    subst hzero
    refine ⟨s, rfl, h, ?_, rfl, rfl⟩
    rw [List.eq_nil_of_length_eq_zero hbytes, put_nil]

theorem emptyIfFull_ok (h : Writing s) :
    ∃ s', emptyIfFull s = .ok () s' ∧ Writing s' ∧ direct s' = direct s ∧
      s'.bufferSize_ = s.bufferSize_ ∧ s'.writePos_ < s.bufferSize_ ∧
      (s.writePos_ < s.bufferSize_ → s' = s) := by
  rw [emptyIfFull, get_bind]
  by_cases hfull : s.writePos_ = s.bufferSize_
  · refine ⟨flushed s, ?_, writing_flushed h, direct_flushed h.toCoherent, rfl, s.bufferSize_pos,
      ?_⟩
    · rw [if_pos hfull]
      rfl
    · intro hlt
      omega
  · grind [pure_apply, h.writePos_le_bufferSize]

/-- The loop ends, and the direct stream has been written.  A round leaves fewer bytes; only the
first one may start on a full buffer. -/
theorem writeLoop_ok (rounds : ℕ) {count : ℕ} (h : Writing s) (hbuffer : buffer ≠ none)
    (hoffset : 0 ≤ offset) (hfits : Fits buffer offset count)
    (hrounds : count + (if s.writePos_ = s.bufferSize_ then 2 else 1) ≤ rounds) :
    ∃ s', writeLoop rounds buffer offset count s = .ok () s' ∧ Coherent s' ∧
      direct s' = (direct s).put (regionBytes buffer offset count) := by
  induction rounds generalizing s offset count with
  | zero =>
    split at hrounds <;> omega
  | succ rounds ih =>
    rw [writeLoop]
    by_cases hnone : (count : ℤ) ≤ 0
    · have hzero : count = 0 := by omega
      subst hzero
      refine ⟨s, ?_, h.toCoherent, ?_⟩
      · rw [if_pos hnone, pure_apply]
      · rw [List.eq_nil_of_length_eq_zero (length_regionBytes hfits), put_nil]
    rw [if_neg hnone, get_bind]
    by_cases hlarge : s.writePos_ = 0 ∧ (s.bufferSize_ : ℤ) ≤ count
    · -- the bytes go past the buffer
      have hempty : s.readPos_ = s.readLen_ := by
        rw [h.nothingRead]
        exact h.readPos_eq_zero h.nothingRead
      refine ⟨{ s with inner_ := s.inner_.put (regionBytes buffer offset count) }, ?_, ?_, ?_⟩
      · rw [if_pos hlarge, inner_ok (write_valid hbuffer hoffset count _)]
      · exact coherent_of_readLen h.isOpen h.allocated (h.readPos_eq_zero h.nothingRead)
          h.nothingRead h.writePos_le
      · rw [direct_of_empty hempty hlarge.1]
        exact direct_of_empty hempty hlarge.1
    · have hroom := h.writePos_le_bufferSize
      obtain ⟨n, hn⟩ : ∃ n, n = min (s.bufferSize_ - s.writePos_) count := ⟨_, rfl⟩
      have hcut : min ((s.bufferSize_ : ℤ) - s.writePos_) count = n := by omega
      rw [if_neg hlarge, hcut]
      rw [Fits] at hfits
      obtain ⟨s₁, hcopy, hwriting₁, hdirect₁, hsize₁, hpos₁⟩ :=
        copyToBuffer_ok (n := n) h hbuffer hoffset (by rw [Fits]; omega) (by omega)
      obtain ⟨s₂, hempty, hwriting₂, hdirect₂, hsize₂, hpos₂, -⟩ := emptyIfFull_ok hwriting₁
      have hnext : (if (n : ℤ) > 0 then writeLoop rounds buffer (offset + n) (count - n)
          else writeLoop rounds buffer offset count)
          = writeLoop rounds buffer (offset + n) (count - n : ℕ) := by
        split
        · congr 1
          omega
        · congr 1 <;> omega
      have hleft : count - n + (if s₂.writePos_ = s₂.bufferSize_ then 2 else 1) ≤ rounds := by
        grind
      obtain ⟨s₃, hloop, hcoherent, hdirect⟩ :=
        ih hwriting₂ (show 0 ≤ offset + n by omega)
          (show Fits buffer (offset + n) (count - n : ℕ) by rw [Fits]; omega) hleft
      refine ⟨s₃, ?_, hcoherent, ?_⟩
      · rw [bind_ok hcopy, bind_ok hempty, hnext, hloop]
      · have hall : n + (count - n) = count := by omega
        rw [hdirect, hdirect₂, hdirect₁, put_put, ← regionBytes_add hoffset, hall]

theorem writing_of_writePos (h : Coherent s) (hwrite : ¬ s.writePos_ = 0) : Writing s :=
  ⟨h, h.readLen_of_writing (Nat.pos_of_ne_zero hwrite)⟩

theorem writing_rewound (h : Coherent s) : Writing (rewound s) := ⟨coherent_rewound h, rfl⟩

theorem write_ok {count : ℕ} (h : Coherent s) (hbuffer : buffer ≠ none) (hoffset : 0 ≤ offset)
    (hfits : Fits buffer offset count) :
    ∃ s', write buffer offset count s = .ok () s' ∧ Coherent s' ∧
      direct s' = (direct s).put (regionBytes buffer offset count) := by
  have hrounds (full : Prop) [Decidable full] :
      count + (if full then 2 else 1) ≤ (count : ℤ).toNat + 2 := by
    split <;> omega
  rw [write, bind_ok (ensureNotClosed_eq h), get_bind]
  by_cases hwrite : s.writePos_ = 0
  · obtain ⟨s', hloop, hcoherent, hdirect⟩ :=
      writeLoop_ok _ (writing_rewound h) hbuffer hoffset hfits (hrounds _)
    refine ⟨s', ?_, hcoherent, ?_⟩
    · rw [if_pos hwrite, bind_ok (clearReadBufferBeforeWrite_eq h), hloop]
    · rw [hdirect, direct_rewound]
  · rw [if_neg hwrite]
    exact writeLoop_ok _ (writing_of_writePos h hwrite) hbuffer hoffset hfits (hrounds _)

theorem storeByte_ok (h : Writing s) (value : UInt8) :
    ∃ s', storeByte value s = .ok () s' ∧ Coherent s' ∧ direct s' = (direct s).put [value] := by
  have hlength : (allocated s).buffer_.length = (allocated s).bufferSize_ := by
    rw [length_allocated h.toCoherent, bufferSize_allocated]
  have hdirect : direct (allocated s) = direct s := (coherent_allocated h.toCoherent).2
  have hset : ∀ t : BufferedStream, t.writePos_ < t.buffer_.length →
      { t with buffer_ := t.buffer_.set t.writePos_ value, writePos_ := t.writePos_ + 1 }
        = copied [value] t := by
    intro t ht
    have hoverlay : t.buffer_.set t.writePos_ value = overlay t.buffer_ t.writePos_ [value] := by
      rw [List.set_eq_take_append_cons_drop, if_pos ht, overlay, zeroPadded_of_le ht.le]
      rfl
    rw [copied, hoverlay]
    rfl
  rw [storeByte, bind_ok (ensureBufferAllocated_eq s), get_bind]
  by_cases hfull : (allocated s).bufferSize_ ≤ (allocated s).writePos_
  · have hroom : (flushed (allocated s)).writePos_ + [value].length
        ≤ (flushed (allocated s)).bufferSize_ := (flushed (allocated s)).bufferSize_pos
    have hcopied := coherent_copied (coherent_flushed h.withBuffer.toCoherent)
      h.withBuffer.nothingRead hlength hroom
    refine ⟨copied [value] (flushed (allocated s)), ?_, hcopied.1, ?_⟩
    · rw [if_pos hfull, ← hset (flushed (allocated s)) (hlength ▸ (allocated s).bufferSize_pos)]
      rfl
    · rw [hcopied.2, direct_flushed h.withBuffer.toCoherent, hdirect]
  · have hroom : (allocated s).writePos_ + [value].length ≤ (allocated s).bufferSize_ := by
      rw [List.length_singleton]
      omega
    have hcopied := coherent_copied h.withBuffer.toCoherent h.withBuffer.nothingRead hlength hroom
    refine ⟨copied [value] (allocated s), ?_, hcopied.1, ?_⟩
    · rw [if_neg hfull, ← hset (allocated s) (by omega)]
      rfl
    · rw [hcopied.2, hdirect]

theorem writeByte_ok (h : Coherent s) (value : UInt8) :
    ∃ s', writeByte value s = .ok () s' ∧ Coherent s' ∧ direct s' = (direct s).put [value] := by
  rw [writeByte, bind_ok (ensureNotClosed_eq h), get_bind]
  by_cases hwrite : s.writePos_ = 0
  · obtain ⟨s', hstore, hcoherent, hdirect⟩ := storeByte_ok (writing_rewound h) value
    refine ⟨s', ?_, hcoherent, ?_⟩
    · rw [if_pos hwrite, bind_ok (clearReadBufferBeforeWrite_eq h), hstore]
    · rw [hdirect, direct_rewound]
  · rw [if_neg hwrite]
    exact storeByte_ok (writing_of_writePos h hwrite) value

end Write

/-! ## Positions and lengths -/

section Seek

variable {s : BufferedStream}

theorem flush_ok (h : Coherent s) :
    ∃ s', flush s = .ok () s' ∧ Coherent s' ∧ s'.readLen_ = 0 ∧ s'.writePos_ = 0 ∧
      s'.inner_ = direct s := by
  rw [flush, bind_ok (ensureNotClosed_eq h), get_bind]
  by_cases hwrite : s.writePos_ > 0
  · have hread := h.readLen_of_writing hwrite
    refine ⟨flushed s, ?_, coherent_flushed h, hread, rfl, ?_⟩
    · rw [if_pos hwrite, flushWrite_eq]
    · rw [direct_of_readLen hread, flushed]
  have hzero : s.writePos_ = 0 := by omega
  rw [if_neg hwrite]
  by_cases hread : s.readPos_ < s.readLen_
  · refine ⟨rewound s, ?_, coherent_rewound h, rfl, hzero, ?_⟩
    · rw [if_pos hread]
      change (flushRead >>= fun _ => inner ByteStream.flush) s = _
      rw [bind_ok (flushRead_eq h)]
      rfl
    · rw [direct_of_writePos hzero, rewound]
  · have hle := h.readPos_le
    refine ⟨{ s with writePos_ := 0, readPos_ := 0, readLen_ := 0 }, ?_, ?_, rfl, rfl, ?_⟩
    · rw [if_neg hread]
      rfl
    · exact coherent_of_readLen h.isOpen h.allocated rfl rfl (Nat.zero_le _)
    · exact (direct_of_empty (by omega) hzero).symm

theorem position_direct (h : Coherent s) :
    ((direct s).position : ℤ)
      = s.inner_.position + ((s.readPos_ : ℤ) - s.readLen_ + s.writePos_) := by
  have hle := h.readPos_le
  have hback := h.readLen_le
  have hwrite := h.writePos_le
  rw [direct, position_put, position_moveTo, List.length_take]
  omega

theorem getPositionProperty_eq (h : Coherent s) :
    getPositionProperty s = .ok ((direct s).position : ℤ) s := by
  have hinner : ByteStream.getPositionProperty s.inner_
      = .ok (s.inner_.position : ℤ) s.inner_ := rfl
  rw [getPositionProperty, bind_ok (ensureNotClosed_eq h), bind_ok (getCanSeekProperty_eq s),
    if_pos rfl, bind_ok (inner_ok hinner), get_bind, position_direct h, pure_apply]

theorem getLengthProperty_ok (h : Coherent s) :
    ∃ s', getLengthProperty s = .ok ((direct s).content.length : ℤ) s' ∧ Coherent s' ∧
      direct s' = direct s := by
  refine ⟨flushed s, ?_, coherent_flushed h, direct_flushed h⟩
  have hinner : ByteStream.getLengthProperty (flushed s).inner_
      = .ok ((flushed s).inner_.content.length : ℤ) (flushed s).inner_ := rfl
  have hlength : (direct s).content = (flushed s).inner_.content := by
    rcases h.exclusive with hwrite | hread
    · rw [direct_of_writePos hwrite, flushed, hwrite, List.take_zero, put_nil,
        content_moveTo]
    · rw [direct_of_readLen hread, flushed]
  rw [getLengthProperty, bind_ok (ensureNotClosed_eq h), bind_ok (flushWrite_eq s),
    inner_ok hinner, hlength]

def destination (t : ByteStream) (offset : ℤ) : SeekOrigin → ℤ
  | .begin => offset
  | .current => t.position + offset
  | .end_ => t.content.length + offset

def beforeBeginning : StreamException :=
  .io "An attempt was made to move the position before the beginning of the stream."

theorem seek_eq (t : ByteStream) (offset : ℤ) (origin : SeekOrigin) :
    ByteStream.seek offset origin t
      = if destination t offset origin < 0 then .error beforeBeginning t
        else .ok (destination t offset origin) (t.moveTo (destination t offset origin).toNat) := by
  have hmove (p : ℤ) : (if p < 0 then throw beforeBeginning else (do
        ByteStream.setPositionProperty p
        pure p) : Program StreamException ByteStream ℤ) t
      = if p < 0 then .error beforeBeginning t else .ok p (t.moveTo p.toNat) := by
    by_cases hneg : p < 0
    · rw [if_pos hneg, if_pos hneg, throw_apply]
    · grind [ByteStream.setPositionProperty, modify_bind, pure_apply]
  cases origin with
  | begin => exact hmove offset
  | current => exact hmove (t.position + offset)
  | end_ => exact hmove (t.content.length + offset)

/-- A seek of the stream behind goes where the same seek of the direct stream goes, once an offset
from the position counts the bytes read ahead. -/
theorem destination_inner (h : Coherent s) (hwrite : s.writePos_ = 0) (offset : ℤ)
    (origin : SeekOrigin) :
    destination s.inner_ (if (s.readLen_ : ℤ) - s.readPos_ > 0 ∧ origin = .current then
        offset - ((s.readLen_ : ℤ) - s.readPos_) else offset) origin
      = destination (direct s) offset origin := by
  have hposition := position_direct h
  have hle := h.readPos_le
  cases origin with
  | begin => rw [if_neg (by simp), destination, destination]
  | current => grind [destination]
  | end_ =>
    rw [if_neg (by simp), destination, destination, direct_of_writePos hwrite, content_moveTo]

theorem settleRead_ok (h : Coherent s) (hwrite : s.writePos_ = 0) (newPos : ℕ) :
    ∃ s', settleRead (direct s).position newPos { s with inner_ := s.inner_.moveTo newPos }
        = .ok (newPos : ℤ) s' ∧
      Coherent s' ∧ direct s' = (direct s).moveTo newPos := by
  have hposition := position_direct h
  have hmoved : (direct s).moveTo newPos = s.inner_.moveTo newPos := by
    rw [direct_of_writePos hwrite, moveTo_moveTo]
  rw [settleRead, get_bind, hmoved]
  by_cases hcached : (newPos : ℤ) - ((direct s).position - s.readPos_) ≥ 0 ∧
      (newPos : ℤ) - ((direct s).position - s.readPos_) < s.readLen_
  · have hreturn : ((s.inner_.moveTo newPos).position : ℤ)
        + ((s.readLen_ : ℤ) - (newPos - ((direct s).position - s.readPos_)))
        = (s.inner_.position : ℤ) := by
      rw [position_moveTo]
      omega
    refine ⟨{ s with readPos_ := ((newPos : ℤ) - ((direct s).position - s.readPos_)).toNat },
      ?_, ?_, ?_⟩
    · rw [if_pos hcached, modify_bind, bind_ok (inner_ok (seek_back hreturn)), pure_apply]
      rfl
    · refine ⟨h.isOpen, h.allocated, ?_, h.readLen_le, h.readLen_le_buffer, h.ahead, h.writePos_le,
        h.exclusive⟩
      simp
      omega
    · grind [direct, put_nil]
  · refine ⟨{ s with inner_ := s.inner_.moveTo newPos, readPos_ := 0, readLen_ := 0 }, ?_, ?_, ?_⟩
    · rw [if_neg hcached]
      rfl
    · exact coherent_of_readLen h.isOpen h.allocated rfl rfl h.writePos_le
    · exact direct_of_empty rfl hwrite

theorem seekRead_refines (h : Coherent s) (hwrite : s.writePos_ = 0) (offset : ℤ)
    (origin : SeekOrigin) :
    RefinesAt StandsFor (seekRead offset origin) (ByteStream.seek offset origin) s (direct s) := by
  have hseek := seek_eq s.inner_ (if (s.readLen_ : ℤ) - s.readPos_ > 0 ∧ origin = .current then
    offset - ((s.readLen_ : ℤ) - s.readPos_) else offset) origin
  have hdirect := seek_eq (direct s) offset origin
  rw [destination_inner h hwrite] at hseek
  generalize destination (direct s) offset origin = newPos at hseek hdirect
  by_cases hneg : newPos < 0
  · rw [if_pos hneg] at hseek hdirect
    refine of_error ?_ hdirect ⟨h, rfl⟩
    rw [seekRead, get_bind, bind_ok (getPositionProperty_eq h), bind_error (inner_error hseek)]
  · rw [if_neg hneg] at hseek hdirect
    obtain ⟨s', hsettle, hcoherent, hview⟩ := settleRead_ok h hwrite newPos.toNat
    rw [Int.toNat_of_nonneg (by omega)] at hsettle
    refine of_ok ?_ hdirect ⟨hcoherent, hview⟩
    rw [seekRead, get_bind, bind_ok (getPositionProperty_eq h), bind_ok (inner_ok hseek), hsettle]

theorem seek_refines (h : Coherent s) (offset : ℤ) (origin : SeekOrigin) :
    RefinesAt StandsFor (seek offset origin) (ByteStream.seek offset origin) s (direct s) := by
  have hrun : seek offset origin s = (if s.writePos_ > 0 then (do
      flushWrite
      inner (ByteStream.seek offset origin)) else seekRead offset origin) s := by
    rw [seek, bind_ok (ensureNotClosed_eq h)]
    rfl
  by_cases hwrite : s.writePos_ > 0
  · have hflushed := coherent_flushed h
    have hread : (flushed s).readLen_ = 0 := h.readLen_of_writing hwrite
    have hempty : (flushed s).readPos_ = (flushed s).readLen_ :=
      (hflushed.readPos_eq_zero hread).trans hread.symm
    have hinner : direct s = (flushed s).inner_ := by
      rw [← direct_flushed h]
      exact direct_of_empty hempty rfl
    have hcoherent (t : ByteStream) : Coherent { flushed s with inner_ := t } :=
      coherent_of_readLen h.isOpen h.allocated (hflushed.readPos_eq_zero hread) hread
        (Nat.zero_le _)
    have hview (t : ByteStream) : direct { flushed s with inner_ := t } = t :=
      direct_of_empty hempty rfl
    rw [if_pos hwrite, bind_ok (flushWrite_eq s)] at hrun
    have hseek := seek_eq (direct s) offset origin
    split at hseek
    · refine of_error ?_ hseek ⟨hcoherent (direct s), hview _⟩
      rw [hrun]
      exact inner_error (hinner ▸ hseek)
    · refine of_ok ?_ hseek ⟨hcoherent _, hview _⟩
      rw [hrun]
      exact inner_ok (hinner ▸ hseek)
  · rw [if_neg hwrite] at hrun
    have hseek := seekRead_refines h (by omega) offset origin
    exact ⟨hrun ▸ hseek.answer_eq, hrun ▸ hseek.related⟩

theorem setPositionProperty_refines (h : Coherent s) (value : ℤ) :
    RefinesAt StandsFor (setPositionProperty value) (ByteStream.setPositionProperty value) s
      (direct s) := by
  rw [setPositionProperty, ByteStream.setPositionProperty]
  by_cases hneg : value < 0
  · rw [if_pos hneg, if_pos hneg]
    exact of_error (throw_apply _ _) (throw_apply _ _) ⟨h, rfl⟩
  · rw [if_neg hneg, if_neg hneg]
    have hseek := seek_eq (direct s) value .begin
    rw [destination, if_neg hneg] at hseek
    obtain ⟨hanswer, hrelated⟩ := seek_refines h value .begin
    rw [hseek] at hanswer hrelated
    cases hrun : seek value .begin s with
    | error e s' =>
      rw [hrun] at hanswer
      cases hanswer
    | ok p s' =>
      rw [hrun, after_ok] at hrelated
      refine of_ok ?_ (modify_apply _ _) hrelated
      rw [bind_ok hrun, pure_apply]

theorem setLength_refines (h : Coherent s) (value : ℤ) :
    RefinesAt StandsFor (setLength value) (ByteStream.setLength value) s (direct s) := by
  rw [setLength, ByteStream.setLength]
  by_cases hneg : value < 0
  · rw [if_pos hneg, if_pos hneg]
    exact of_error (throw_apply _ _) (throw_apply _ _) ⟨h, rfl⟩
  · rw [if_neg hneg, if_neg hneg]
    obtain ⟨s', hflush, hcoherent, hread, hwrite, hinner⟩ := flush_ok h
    have hpos := hcoherent.readPos_eq_zero hread
    have hset : (modify (·.resize value.toNat) : Program StreamException ByteStream Unit) s'.inner_
        = .ok () ((direct s).resize value.toNat) := by
      rw [hinner, modify_apply]
    have hresized : Coherent { s' with inner_ := (direct s).resize value.toNat } :=
      coherent_of_readLen hcoherent.isOpen hcoherent.allocated hpos hread hcoherent.writePos_le
    refine of_ok ?_ (modify_apply _ _)
      ⟨hresized, direct_of_empty (hpos.trans hread.symm) hwrite⟩
    rw [bind_ok (ensureNotClosed_eq h), bind_ok (getCanSeekProperty_eq s), if_pos rfl,
      bind_ok (getCanWriteProperty_eq s), if_pos rfl, bind_ok hflush, inner_ok hset]

end Seek

/-! ## Regions that no stream takes -/

section Unchecked

variable {s : BufferedStream} {buffer : Option (List UInt8)} {offset count : ℤ}

theorem checkRegion_invalid (hinvalid : ¬ValidRegion buffer offset count) :
    ∃ e, ∀ t : ByteStream, (checkRegion buffer offset count : Program StreamException ByteStream
      Unit) t = .error (.runtime e) t := by
  unfold checkRegion negative
  by_cases hbuffer : buffer = none
  · exact ⟨_, fun t => by rw [if_pos hbuffer, throw_apply]⟩
  by_cases hoffset : offset < 0
  · exact ⟨_, fun t => by rw [if_neg hbuffer, if_pos hoffset, throw_apply]⟩
  by_cases hcount : count < 0
  · exact ⟨_, fun t => by rw [if_neg hbuffer, if_neg hoffset, if_pos hcount, throw_apply]⟩
  · exact absurd ⟨hbuffer, by omega, by omega⟩ hinvalid

theorem not_copies (hinvalid : ¬ValidRegion buffer offset count) (hcount : 0 < count) {n : ℤ}
    (hn : 0 < n) : ¬Copies buffer offset n := by
  rintro (hzero | ⟨-, hbuffer, hoffset⟩)
  · omega
  · exact hinvalid ⟨hbuffer, hoffset, hcount.le⟩

/-- The buffer gives nothing, or the copy goes astray. -/
theorem readFromBuffer_invalid (hinvalid : ¬ValidRegion buffer offset count) (s : BufferedStream) :
    (readFromBuffer buffer offset count s = .ok [] s ∧ (count = 0 ∨ s.readLen_ ≤ s.readPos_)) ∨
      readFromBuffer buffer offset count s = .error .diverged s := by
  rw [readFromBuffer, get_bind]
  by_cases havailable : (s.readLen_ : ℤ) - s.readPos_ ≤ 0
  · exact .inl ⟨by rw [if_pos havailable, pure_apply], .inr (by omega)⟩
  rw [if_neg havailable]
  by_cases hcopies : Copies buffer offset (min ((s.readLen_ : ℤ) - s.readPos_) count)
  · have hzero : count = 0 := by
      rcases hcopies with hzero | ⟨hpos, hbuffer, hoffset⟩
      · omega
      · exact absurd ⟨hbuffer, hoffset, by omega⟩ hinvalid
    subst hzero
    rw [min_eq_right (by omega)] at hcopies ⊢
    exact .inl ⟨rfl, .inl rfl⟩
  · rw [if_neg hcopies, throw_apply]
    exact .inr rfl

theorem read_empty (h : Coherent s) (hfrom : readFromBuffer buffer offset count s = .ok [] s) :
    read buffer offset count s
      = if count = 0 then .ok [] s else readRest buffer offset count [] s := by
  rw [BufferedStream.read, bind_ok (ensureNotClosed_eq h), bind_ok hfrom, List.length_nil,
    Nat.cast_zero, add_zero, sub_zero]
  by_cases hcount : count = 0
  · rw [if_pos hcount.symm, if_pos hcount, pure_apply]
  · rw [if_neg (Ne.symm hcount), if_neg hcount]

/-- A read that goes past the buffer is refused by the stream behind. -/
theorem read_past (h : Coherent s) (hinvalid : ¬ValidRegion buffer offset count)
    (hused : s.readPos_ = s.readLen_) (hlarge : (s.bufferSize_ : ℤ) ≤ count) :
    RefinesAt StandsFor (read buffer offset count) (ByteStream.read buffer offset count) s
      (direct s) := by
  have hpos := s.bufferSize_pos
  obtain ⟨e, hcheck⟩ := checkRegion_invalid hinvalid
  have hrefused (t : ByteStream) : ByteStream.read buffer offset count t
      = .error (.runtime e) t := bind_error (hcheck t)
  have hfrom : readFromBuffer buffer offset count s = .ok [] s := by
    rw [readFromBuffer, get_bind]
    dsimp only
    rw [if_pos (by omega), pure_apply]
  have hread : read buffer offset count s = .error (.runtime e) (settled s) := by
    rw [read_empty h hfrom, if_neg (by omega), readRest_eq hused, if_pos hlarge]
    exact bind_error (inner_error (hrefused _))
  exact of_error hread (hrefused _) ⟨coherent_settled h, direct_settled h⟩

theorem read_unchecked (h : Coherent s) (hinvalid : ¬ValidRegion buffer offset count)
    (hnot : ¬(s.readPos_ = s.readLen_ ∧ (s.bufferSize_ : ℤ) ≤ count)) :
    ∃ s', read buffer offset count s = .ok [] s' ∨
      read buffer offset count s = .error .diverged s' := by
  have hle := h.readPos_le
  rcases readFromBuffer_invalid hinvalid s with ⟨hfrom, hcase⟩ | hastray
  · rw [read_empty h hfrom]
    by_cases hcount : count = 0
    · exact ⟨s, .inl (if_pos hcount)⟩
    have hused : s.readPos_ = s.readLen_ := by omega
    have hsmall : ¬(s.bufferSize_ : ℤ) ≤ count := fun hlarge => hnot ⟨hused, hlarge⟩
    rw [if_neg hcount, readRest_eq hused, if_neg hsmall, bind_ok (fillBuffer_eq _)]
    rcases readFromBuffer_invalid hinvalid (filled (settled s)) with ⟨hfrom, -⟩ | hastray
    · exact ⟨_, .inl (bind_ok hfrom)⟩
    · exact ⟨_, .inr (bind_error hastray)⟩
  · refine ⟨s, .inr ?_⟩
    rw [BufferedStream.read, bind_ok (ensureNotClosed_eq h), bind_error hastray]

theorem writeLoop_full (hfull : s.writePos_ = s.bufferSize_) (hcount : 0 < count) (rounds : ℕ) :
    writeLoop (rounds + 1) buffer offset count s
      = writeLoop rounds buffer offset count (flushed s) := by
  have hpos := s.bufferSize_pos
  have hroom : min ((s.bufferSize_ : ℤ) - s.writePos_) count = 0 := by omega
  have hempty : emptyIfFull s = .ok () (flushed s) := by
    rw [emptyIfFull, get_bind, if_pos hfull, bind_ok (inner_ok (write_own _ _ _))]
    rfl
  rw [writeLoop, if_neg (by omega), get_bind, if_neg (by omega), hroom, copyToBuffer,
    if_neg (by simp), pure_bind, bind_ok hempty, if_neg (by simp)]

theorem writeLoop_astray (hinvalid : ¬ValidRegion buffer offset count) (hcount : 0 < count)
    (hroom : s.writePos_ < s.bufferSize_)
    (hsmall : ¬(s.writePos_ = 0 ∧ (s.bufferSize_ : ℤ) ≤ count)) (rounds : ℕ) :
    ∃ s', writeLoop (rounds + 1) buffer offset count s = .error .diverged s' := by
  have hsome : 0 < min ((s.bufferSize_ : ℤ) - s.writePos_) count := by omega
  have hcopy : copyToBuffer buffer offset (min ((s.bufferSize_ : ℤ) - s.writePos_) count) s
      = .error .diverged (allocated s) := by
    rw [copyToBuffer, if_pos hsome, bind_ok (ensureBufferAllocated_eq s),
      if_neg (not_copies hinvalid hcount hsome), throw_apply]
  refine ⟨allocated s, ?_⟩
  rw [writeLoop, if_neg (by omega), get_bind, if_neg hsmall]
  exact bind_error hcopy

theorem writeLoop_past (hlarge : (s.bufferSize_ : ℤ) ≤ count) (hzero : s.writePos_ = 0)
    {e : Exception} (hcheck : ∀ t : ByteStream, checkRegion buffer offset count t = .error (.runtime e) t)
    (rounds : ℕ) :
    writeLoop (rounds + 1) buffer offset count s = .error (.runtime e) s := by
  have hpos := s.bufferSize_pos
  rw [writeLoop, if_neg (by omega), get_bind, if_pos ⟨hzero, hlarge⟩]
  exact inner_error (bind_error (hcheck _))

/-- A write that goes past the buffer is refused by the stream behind. -/
theorem write_past (h : Coherent s) (hinvalid : ¬ValidRegion buffer offset count)
    (hempty : s.writePos_ = 0 ∨ s.writePos_ = s.bufferSize_)
    (hlarge : (s.bufferSize_ : ℤ) ≤ count) :
    RefinesAt StandsFor (write buffer offset count) (ByteStream.write buffer offset count) s
      (direct s) := by
  have hpos := s.bufferSize_pos
  obtain ⟨e, hcheck⟩ := checkRegion_invalid hinvalid
  have hrefused : ByteStream.write buffer offset count (direct s)
      = .error (.runtime e) (direct s) := bind_error (hcheck _)
  rcases hempty with hzero | hfull
  · have hwrite : write buffer offset count s = .error (.runtime e) (rewound s) := by
      rw [write, bind_ok (ensureNotClosed_eq h), get_bind, if_pos hzero,
        bind_ok (clearReadBufferBeforeWrite_eq h)]
      exact writeLoop_past (s := rewound s) hlarge hzero hcheck _
    exact of_error hwrite hrefused ⟨coherent_rewound h, direct_rewound s⟩
  · have hwrite : write buffer offset count s = .error (.runtime e) (flushed s) := by
      rw [write, bind_ok (ensureNotClosed_eq h), get_bind, if_neg (by omega),
        writeLoop_full hfull (by omega)]
      exact writeLoop_past (s := flushed s) hlarge rfl hcheck _
    exact of_error hwrite hrefused ⟨coherent_flushed h, direct_flushed h⟩

theorem write_unchecked (h : Coherent s) (hinvalid : ¬ValidRegion buffer offset count)
    (hnot : ¬((s.writePos_ = 0 ∨ s.writePos_ = s.bufferSize_) ∧ (s.bufferSize_ : ℤ) ≤ count)) :
    ∃ s', write buffer offset count s = .ok () s' ∨
      write buffer offset count s = .error .diverged s' := by
  have hloop (t : BufferedStream) (hroom : t.writePos_ ≤ t.bufferSize_)
      (hother : ¬((t.writePos_ = 0 ∨ t.writePos_ = t.bufferSize_) ∧
        (t.bufferSize_ : ℤ) ≤ count)) :
      ∃ s', writeLoop (count.toNat + 2) buffer offset count t = .ok () s' ∨
        writeLoop (count.toNat + 2) buffer offset count t = .error .diverged s' := by
    by_cases hcount : count ≤ 0
    · refine ⟨t, .inl ?_⟩
      rw [writeLoop, if_pos hcount, pure_apply]
    by_cases hfull : t.writePos_ = t.bufferSize_
    · have hpos := t.bufferSize_pos
      obtain ⟨s', hastray⟩ := writeLoop_astray (s := flushed t) hinvalid (by omega) hpos
        (fun hlarge => hother ⟨.inr hfull, hlarge.2⟩) count.toNat
      refine ⟨s', .inr ?_⟩
      rw [writeLoop_full hfull (by omega), hastray]
    · obtain ⟨s', hastray⟩ := writeLoop_astray hinvalid (by omega) (lt_of_le_of_ne hroom hfull)
        (fun hlarge => hother ⟨.inl hlarge.1, hlarge.2⟩) (count.toNat + 1)
      exact ⟨s', .inr hastray⟩
  rw [write, bind_ok (ensureNotClosed_eq h), get_bind]
  by_cases hwrite : s.writePos_ = 0
  · rw [if_pos hwrite, bind_ok (clearReadBufferBeforeWrite_eq h)]
    exact hloop (rewound s) h.writePos_le_bufferSize hnot
  · rw [if_neg hwrite]
    exact hloop s h.writePos_le_bufferSize hnot

end Unchecked

/-! ## Every call -/

section Calls

open Interface Interface.StreamCall

variable {s : BufferedStream}

theorem Region.fits_count (r : Region) (hvalid : r.Valid) :
    Fits r.buffer r.offset r.count.toNat := by
  obtain ⟨hbuffer, hoffset, hcount⟩ := hvalid
  obtain ⟨bytes, hbytes⟩ := Option.ne_none_iff_exists'.mp hbuffer
  have hfits := r.fits bytes hbytes
  rw [Fits, hbytes, Option.getD_some]
  omega

theorem read_refines (h : Coherent s) (r : Region) (hchecked : Checked (.read r) s) :
    RefinesAt StandsFor (read r.buffer r.offset r.count)
      (ByteStream.read r.buffer r.offset r.count) s (direct s) := by
  by_cases hvalid : r.Valid
  · obtain ⟨hbuffer, hoffset, hcount⟩ := hvalid
    obtain ⟨s', hrun, hrelated⟩ := read_ok h hbuffer hoffset r.count.toNat
    have hdirect := read_valid hbuffer hoffset r.count.toNat (direct s)
    rw [Int.toNat_of_nonneg hcount] at hrun hdirect
    exact of_ok hrun hdirect hrelated
  · obtain ⟨hused, hlarge⟩ := hchecked.resolve_left hvalid
    exact read_past h hvalid hused hlarge

theorem write_refines (h : Coherent s) (r : Region) (hchecked : Checked (.write r) s) :
    RefinesAt StandsFor (write r.buffer r.offset r.count)
      (ByteStream.write r.buffer r.offset r.count) s (direct s) := by
  by_cases hvalid : r.Valid
  · have hfits := Region.fits_count r hvalid
    obtain ⟨hbuffer, hoffset, hcount⟩ := hvalid
    obtain ⟨s', hrun, hrelated⟩ := write_ok h hbuffer hoffset hfits
    have hdirect := write_valid hbuffer hoffset r.count.toNat (direct s)
    rw [Int.toNat_of_nonneg hcount] at hrun hdirect hrelated
    exact of_ok hrun hdirect hrelated
  · obtain ⟨hempty, hlarge⟩ := hchecked.resolve_left hvalid
    exact write_past h hvalid hempty hlarge

theorem call_refines (call : StreamCall) (s : BufferedStream) (t : ByteStream)
    (h : StandsFor s t) (hchecked : call.Checked s) :
    RefinesAt StandsFor call.onBufferedStream call.onByteStream s t := by
  obtain ⟨h, rfl⟩ := h
  cases call with
  | read r => exact (read_refines h r hchecked).map _
  | write r => exact (write_refines h r hchecked).map _
  | writeByte value =>
    obtain ⟨s', hrun, hrelated⟩ := writeByte_ok h value
    exact of_ok (bind_ok hrun) rfl hrelated
  | seek offset origin => exact (seek_refines h offset origin).map _
  | getPositionProperty => exact of_ok (bind_ok (getPositionProperty_eq h)) rfl ⟨h, rfl⟩
  | setPositionProperty value => exact (setPositionProperty_refines h value).map _
  | getLengthProperty =>
    obtain ⟨s', hrun, hrelated⟩ := getLengthProperty_ok h
    exact of_ok (bind_ok hrun) rfl hrelated
  | setLength value => exact (setLength_refines h value).map _
  | flush =>
    obtain ⟨s', hrun, hcoherent, hread, hwrite, hinner⟩ := flush_ok h
    have hdirect : direct s' = direct s := by
      rw [← hinner]
      exact direct_of_empty ((hcoherent.readPos_eq_zero hread).trans hread.symm) hwrite
    exact of_ok (bind_ok hrun) rfl ⟨hcoherent, hdirect⟩

/-- An unchecked region is refused by the plain stream; the buffered one returns, or copies
astray. -/
theorem answer_ne_of_unchecked (call : StreamCall) (s : BufferedStream) (t : ByteStream)
    (h : StandsFor s t) (hnot : ¬call.Checked s) :
    answer (call.onBufferedStream s) ≠ answer (call.onByteStream t) := by
  obtain ⟨h, rfl⟩ := h
  cases call with
  | read r =>
    obtain ⟨hinvalid, hpast⟩ := not_or.mp hnot
    obtain ⟨e, hcheck⟩ := checkRegion_invalid hinvalid
    have hdirect : onByteStream (.read r) (direct s) = .error (.runtime e) (direct s) :=
      bind_error (bind_error (hcheck _))
    obtain ⟨s', hrun | hrun⟩ := read_unchecked h hinvalid hpast
    · have hbuffered : onBufferedStream (.read r) s = .ok (.bytes []) s' := bind_ok hrun
      rw [hbuffered, hdirect]
      simp
    · have hbuffered : onBufferedStream (.read r) s = .error .diverged s' := bind_error hrun
      rw [hbuffered, hdirect]
      simp
  | write r =>
    obtain ⟨hinvalid, hpast⟩ := not_or.mp hnot
    obtain ⟨e, hcheck⟩ := checkRegion_invalid hinvalid
    have hdirect : onByteStream (.write r) (direct s) = .error (.runtime e) (direct s) :=
      bind_error (bind_error (hcheck _))
    obtain ⟨s', hrun | hrun⟩ := write_unchecked h hinvalid hpast
    · have hbuffered : onBufferedStream (.write r) s = .ok .nothing s' := bind_ok hrun
      rw [hbuffered, hdirect]
      simp
    · have hbuffered : onBufferedStream (.write r) s = .error .diverged s' := bind_error hrun
      rw [hbuffered, hdirect]
      simp
  | writeByte | seek | getPositionProperty | setPositionProperty | getLengthProperty | setLength
  | flush => exact absurd trivial hnot

/-- The calls are answered as on the plain stream itself, the position is the plain stream's
throughout, and after a flush the stream behind is the plain stream. -/
structure Refines (calls : List StreamCall) (s : BufferedStream) (t : ByteStream) : Prop where
  answers_eq : answers onBufferedStream calls s = answers onByteStream calls t
  position_eq : ∀ first, first <+: calls →
    answer (getPositionProperty (afterAll onBufferedStream first s))
      = .ok ((afterAll onByteStream first t).position : ℤ)
  flushed_eq : (afterAll onBufferedStream (calls ++ [.flush]) s).inner_
    = afterAll onByteStream (calls ++ [.flush]) t

/-- **A buffered stream refines the stream behind it, where its regions are checked.**  Over a plain
stream, with any buffer, a sequence of calls refines the plain stream exactly when every region
that is read into or written from has a pointer and no negative number, or its call goes past the
buffer to the stream behind. -/
theorem buffered_stream_refines {t : ByteStream} {bufferSize : ℤ} {s : BufferedStream}
    (h : new t bufferSize = .ok s) (calls : List StreamCall) :
    Refines calls s t ↔ AllMeet Checked onBufferedStream calls s := by
  refine ⟨fun hrefines => allMeet_of_answers_eq call_refines answer_ne_of_unchecked (of_new h)
    hrefines.answers_eq, fun hchecked => ?_⟩
  obtain ⟨hanswers, hafter, hview⟩ := run_refines_of_allMeet call_refines (of_new h) hchecked
  refine ⟨hanswers, fun first hfirst => ?_, ?_⟩
  · obtain ⟨-, hcoherent, hthen⟩ :=
      run_refines_of_allMeet call_refines (of_new h) (hchecked.of_prefix hfirst)
    rw [getPositionProperty_eq hcoherent, answer_ok, hthen]
  · obtain ⟨s', hflush, -, -, -, hinner⟩ := flush_ok hafter
    have hcall : StreamCall.flush.onBufferedStream (afterAll onBufferedStream calls s)
        = .ok .nothing s' := bind_ok hflush
    rw [afterAll_append, afterAll_append, afterAll, afterAll, hcall, after_ok, afterAll, hinner,
      hview]
    rfl

/-- Three bytes of buffer in front of three bytes: a read ahead, a byte written over the second
one, a seek back to it, and a write that the stream behind refuses. -/
theorem buffered_stream_refines_three :
    ∃ s, new ⟨[1, 2, 3], 0⟩ 3 = .ok s ∧
      Refines [.read ⟨some [0], 0, 1, by simp⟩, .writeByte 9, .seek (-1) .current,
        .read ⟨some [0, 0, 0, 0, 0], 0, 5, by simp⟩, .write ⟨none, 0, 4, by simp⟩] s
        ⟨[1, 2, 3], 0⟩ :=
  ⟨_, rfl, (@buffered_stream_refines ⟨[1, 2, 3], 0⟩ 3 _ rfl _).mpr
    ⟨.inl (by decide), trivial, trivial, .inl (by decide), .inr (by decide), trivial⟩⟩

/-- A write of a negative count returns, and a read of one after a read ahead copies astray, where
the plain stream refuses both. -/
theorem not_buffered_stream_refines :
    ∃ s, new ⟨[1, 2, 3], 0⟩ 3 = .ok s ∧
      ¬Refines [.write ⟨some [], 0, -1, by simp⟩] s ⟨[1, 2, 3], 0⟩ ∧
      ¬Refines [.read ⟨some [0], 0, 1, by simp⟩, .read ⟨some [], 0, -1, by simp⟩] s
        ⟨[1, 2, 3], 0⟩ :=
  ⟨_, rfl, fun h => absurd h.answers_eq (by decide), fun h => absurd h.answers_eq (by decide)⟩

end Calls

end SharpRuntime.Analysis.StreamBuffering
