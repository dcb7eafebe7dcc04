import SharpRuntime.Analysis.BinaryReading
import SharpRuntime.Analysis.BinaryWriting

/-!
# The memory stream as an array of bytes

A memory stream shows a tape: the bytes of its vector, and its position.  Every call that returns
does to the tape what a call of its kind does to an array that is extended with zeros, and a call
that throws does nothing.  `writeByte` appends instead of extending, so it does so only where there
is nothing to extend.
-/

set_option autoImplicit false

namespace SharpRuntime.Analysis.MemoryStreams

open Machine Model BinaryWriting
open MemoryStream

/-- A call; the bytes to write lie in the buffer of the caller. -/
inductive MemoryCall where
  | read (offset count : Int32)
  | write (buffer : List UInt8) (offset count : Int32)
    (inside : 0 < count.toInt → offset.toInt + count.toInt ≤ buffer.length)
  | writeByte (value : UInt8)
  | seek (offset : Int32) (origin : SeekOrigin)
  | setPositionProperty (value : Int32)
  | setLength (value : Int32)

namespace MemoryCall

def run : MemoryCall → Program StreamException MemoryStream (List UInt8)
  | read offset count => MemoryStream.read offset.toInt count.toInt
  | write buffer offset count _ => do
    MemoryStream.write buffer offset.toInt count.toInt
    pure []
  | writeByte value => do
    MemoryStream.writeByte value
    pure []
  | seek offset origin => do
    let _ ← MemoryStream.seek offset origin
    pure []
  | setPositionProperty value => do
    MemoryStream.setPositionProperty value.toInt
    pure []
  | setLength value => do
    MemoryStream.setLength value
    pure []

/-- Where a seek leads from a position in an array of the given length. -/
def target (offset : Int32) (position length : ℕ) : SeekOrigin → ℤ
  | .begin => offset.toInt
  | .current => position + offset.toInt
  | .end_ => length + offset.toInt

def beforeBegin : StreamException :=
  .io "An attempt was made to move the position before the beginning of the stream."

/-- The exception of a call that is refused: for a negative argument, for a position past `intcsMax`
after a write, or for one before the array. -/
def fault (t : Tape UInt8) : MemoryCall → Option StreamException
  | read offset count =>
    if offset.toInt < 0 then some (negative "offset")
    else if count.toInt < 0 then some (negative "count") else none
  | write _ offset count _ =>
    if offset.toInt < 0 then some (negative "offset")
    else if count.toInt < 0 then some (negative "count")
    else if count.toInt = 0 then none
    else if intcsMax < t.position + count.toInt then some tooLong else none
  | writeByte _ => if intcsMax < t.position + 1 then some tooLong else none
  | seek offset origin =>
    if target offset t.position t.content.length origin < 0 then some beforeBegin else none
  | setPositionProperty value => if value.toInt < 0 then some valueOutOfRange else none
  | setLength value => if value.toInt < 0 then some valueOutOfRange else none

def onArray (t : Tape UInt8) : MemoryCall → List UInt8 × Tape UInt8
  | read _ count => (t.peek count.toInt.toNat, t.skip (t.peek count.toInt.toNat).length)
  | write buffer offset count _ =>
    ([], t.put ((buffer.drop offset.toInt.toNat).take count.toInt.toNat))
  | writeByte value => ([], t.put [value])
  | seek offset origin => ([], t.moveTo (target offset t.position t.content.length origin).toNat)
  | setPositionProperty value => ([], t.moveTo value.toInt.toNat)
  | setLength value => ([], t.resize value.toInt.toNat)

/-- A byte is written where there is nothing to extend and room for the next position, and the
sum of a seek stays in its type. -/
def Admissible (s : MemoryStream) : MemoryCall → Prop
  | writeByte _ => s.position_ ≤ s.data_.length ∧ s.position_ < intcsMax
  | seek offset origin => target offset s.position_ s.data_.length origin ≤ intcsMax
  | _ => True

end MemoryCall

/-- Each call is refused with its fault and leaves everything as it was, or returns, has read the
bytes of the array and leaves what it leaves of the array. -/
def Follows : List MemoryCall → MemoryStream → Tape UInt8 → Prop
  | [], s, t => tape s = t
  | call :: calls, s, t =>
    tape s = t ∧
      match call.fault t with
      | none => ∃ s', call.run s = .ok (call.onArray t).1 s' ∧ Follows calls s' (call.onArray t).2
      | some e => ∃ s', call.run s = .error e s' ∧ Follows calls s' t

def Admitted : List MemoryCall → MemoryStream → Prop
  | [], _ => True
  | call :: calls, s => call.Admissible s ∧ Admitted calls (after (call.run s))

structure Ready (s : MemoryStream) : Prop where
  isOpen : s.isOpen_ = true
  writable : s.writable_ = true

def Obeys (call : MemoryCall) (s : MemoryStream) : Prop :=
  (call.fault (tape s) = none ∧ ∃ s', call.run s = .ok (call.onArray (tape s)).1 s' ∧
    tape s' = (call.onArray (tape s)).2 ∧ Ready s') ∨
  ∃ e, call.fault (tape s) = some e ∧ call.run s = .error e s

variable {s : MemoryStream}

theorem obeys_read (h : Ready s) (offset count : Int32) : Obeys (.read offset count) s := by
  have hensure := ensureNotClosed_eq h.isOpen
  rcases lt_or_ge offset.toInt 0 with hoffset | hoffset
  · refine .inr ⟨_, if_pos hoffset, ?_⟩
    rw [MemoryCall.run, MemoryStream.read, bind_ok hensure, if_pos hoffset, throw_apply]
  rcases lt_or_ge count.toInt 0 with hcount | hcount
  · refine .inr ⟨_, (if_neg hoffset.not_gt).trans (if_pos hcount), ?_⟩
    rw [MemoryCall.run, MemoryStream.read, bind_ok hensure, if_neg (by omega), if_pos hcount,
      throw_apply]
  · have hread := BinaryReading.read_eq h.isOpen offset.toInt.toNat count.toInt.toNat
    rw [Int.toNat_of_nonneg hoffset, Int.toNat_of_nonneg hcount] at hread
    refine .inl ⟨(if_neg hoffset.not_gt).trans (if_neg hcount.not_gt), ?_⟩
    exact ⟨_, hread, rfl, h.isOpen, h.writable⟩

theorem write_count (h : Ready s) {buffer bytes : List UInt8} {offset count : ℤ}
    (hoffset : 0 ≤ offset) (hcount : 0 < count)
    (hbytes : (buffer.drop offset.toNat).take count.toNat = bytes)
    (hlength : bytes.length = count) :
    write buffer offset count s = write bytes 0 bytes.length s := by
  have hregion : (bytes.drop (0 : ℤ).toNat).take count.toNat = bytes := by
    rw [← hlength]
    simp
  rw [write, write, bind_ok (ensureNotClosed_eq h.isOpen),
    bind_ok (ensureNotClosed_eq h.isOpen), get_bind, get_bind]
  simp only [hbytes, hregion, hlength, if_neg (show ¬offset < 0 by omega),
    if_neg (show ¬count < 0 by omega), if_neg (show ¬count = 0 by omega), lt_irrefl, if_false]

theorem obeys_write (h : Ready s) (buffer : List UInt8) (offset count : Int32)
    (inside : 0 < count.toInt → offset.toInt + count.toInt ≤ buffer.length) :
    Obeys (.write buffer offset count inside) s := by
  have hensure := ensureNotClosed_eq h.isOpen
  have hwritable : ¬((!s.writable_) = true) := by rw [h.writable]; decide
  rcases lt_or_ge offset.toInt 0 with hoffset | hoffset
  · refine .inr ⟨_, if_pos hoffset, bind_error ?_⟩
    rw [MemoryStream.write, bind_ok hensure, get_bind, if_neg hwritable, if_pos hoffset,
      throw_apply]
  have hoffset' := hoffset.not_gt
  rcases lt_trichotomy count.toInt 0 with hcount | hcount | hcount
  · refine .inr ⟨_, (if_neg hoffset').trans (if_pos hcount), bind_error ?_⟩
    rw [MemoryStream.write, bind_ok hensure, get_bind, if_neg hwritable, if_neg (by omega),
      if_pos hcount, throw_apply]
  · have hnone : MemoryStream.write buffer offset.toInt count.toInt s = .ok () s := by
      rw [MemoryStream.write, bind_ok hensure, get_bind, if_neg hwritable, if_neg (by omega),
        if_neg (by omega), if_pos hcount, pure_apply]
    refine .inl ⟨(if_neg hoffset').trans ((if_neg hcount.not_lt).trans (if_pos hcount)), ?_⟩
    refine ⟨s, bind_ok hnone, ?_, h⟩
    rw [MemoryCall.onArray, hcount, Int.toNat_zero, List.take_zero, Tape.put_nil]
  · have hfault : (MemoryCall.write buffer offset count inside).fault (tape s) =
        if (intcsMax : ℤ) < s.position_ + count.toInt then some tooLong else none :=
      (if_neg hoffset').trans ((if_neg hcount.not_gt).trans (if_neg hcount.ne'))
    have hinside := inside hcount
    have hlength : (((buffer.drop offset.toInt.toNat).take count.toInt.toNat).length : ℤ)
        = count.toInt := by
      rw [List.length_take, List.length_drop]
      omega
    have hwrite := write_count h hoffset hcount rfl hlength
    rcases Nat.lt_or_ge intcsMax (s.position_ +
      ((buffer.drop offset.toInt.toNat).take count.toInt.toNat).length) with hlong | hfits
    · refine .inr ⟨_, hfault.trans (if_pos (by omega)),
        bind_error (hwrite.trans (write_tooLong h.isOpen h.writable ?_ hlong))⟩
      intro hnil
      rw [hnil, List.length_nil] at hlength
      omega
    · obtain ⟨s', hs', hopen, hwritable', htape⟩ := write_ok h.isOpen h.writable hfits
      refine .inl ⟨hfault.trans (if_neg (by omega)), ?_⟩
      exact ⟨s', bind_ok (hwrite.trans hs'), htape, hopen, hwritable'⟩

theorem writeByte_full (h : Ready s) (value : UInt8) (hfull : ¬s.position_ < intcsMax) :
    writeByte value s = .error .diverged s := by
  rw [writeByte, bind_ok (ensureNotClosed_eq h.isOpen), get_bind,
    if_neg (by rw [h.writable]; decide), dif_neg hfull, throw_apply]

/-- The bytes after a byte is written: one more at the end, or one of them replaced. -/
def withByte (data : List UInt8) (position : ℕ) (value : UInt8) : List UInt8 :=
  if position ≥ data.length then data ++ [value] else data.set position value

theorem writeByte_ok (h : Ready s) (value : UInt8) (hroom : s.position_ < intcsMax) :
    ∃ s', writeByte value s = .ok () s' ∧ Ready s' ∧
      tape s' = ⟨withByte s.data_ s.position_ value, s.position_ + 1⟩ := by
  rw [writeByte, bind_ok (ensureNotClosed_eq h.isOpen), get_bind,
    if_neg (by rw [h.writable]; decide), dif_pos hroom, withByte]
  by_cases hend : s.position_ ≥ s.data_.length
  · rw [dif_pos hend, if_pos hend]
    exact ⟨_, rfl, ⟨h.isOpen, h.writable⟩, rfl⟩
  · rw [dif_neg hend, if_neg hend]
    exact ⟨_, rfl, ⟨h.isOpen, h.writable⟩, rfl⟩

theorem withByte_eq_iff (data : List UInt8) (position : ℕ) (value : UInt8) :
    withByte data position value = overlay data position [value] ↔ position ≤ data.length := by
  rw [withByte]
  constructor
  · intro heq
    by_contra hlt
    have hlength := congrArg List.length heq
    rw [if_pos (by omega), length_overlay, List.length_append, List.length_singleton] at hlength
    omega
  · intro hle
    split
    case isTrue hge =>
      obtain rfl : position = data.length := Nat.le_antisymm hle hge
      exact (overlay_length _ _).symm
    case isFalse hlt =>
      rw [overlay, zeroPadded_of_le hle, List.set_eq_take_append_cons_drop, if_pos (by omega)]
      rfl

theorem obeys_writeByte (h : Ready s) {value : UInt8}
    (hadmissible : (MemoryCall.writeByte value).Admissible s) : Obeys (.writeByte value) s := by
  obtain ⟨s', hs', hready, htape⟩ := writeByte_ok h value hadmissible.2
  refine .inl ⟨if_neg (Nat.not_lt.mpr hadmissible.2), s', bind_ok hs', htape.trans ?_, hready⟩
  rw [(withByte_eq_iff _ _ _).mpr hadmissible.1]
  exact (Tape.put_of_ne_nil (tape s) (List.cons_ne_nil value [])).symm

theorem writeByte_eq_iff (h : Ready s) (value : UInt8) :
    writeByte value s = write [value] 0 1 s ↔
      s.position_ ≤ s.data_.length ∧ s.position_ < intcsMax := by
  have hlength : ([value].length : ℤ) = 1 := rfl
  rw [← hlength]
  by_cases hroom : s.position_ < intcsMax
  · obtain ⟨s', hs', hready, htape⟩ := writeByte_ok h value hroom
    have hfits : s.position_ + [value].length ≤ intcsMax := hroom
    obtain ⟨s'', hs'', hopen, hwritable, htape'⟩ := write_ok h.isOpen h.writable hfits
    have hstate : s' = s'' ↔ tape s' = tape s'' := by
      refine ⟨congrArg tape, fun heq => ?_⟩
      obtain ⟨hdata, hposition⟩ := Tape.mk.inj heq
      have hopen' := hready.isOpen.trans hopen.symm
      have hwritable' := hready.writable.trans hwritable.symm
      cases s'
      cases s''
      congr
    rw [hs', hs'', EStateM.Result.ok.injEq, hstate, htape, htape', Tape.mk.injEq]
    simp only [true_and, hroom, and_true]
    exact (and_iff_left rfl).trans (withByte_eq_iff _ _ _)
  · rw [writeByte_full h value hroom, write_tooLong h.isOpen h.writable (List.cons_ne_nil _ _)
      (by rw [List.length_singleton]; omega)]
    refine iff_of_false (fun heq => ?_) fun hle => hroom hle.2
    cases (EStateM.Result.error.inj heq).1

theorem setPositionProperty_ok (h : Ready s) {value : ℤ} (hvalue : 0 ≤ value) :
    setPositionProperty value s = .ok () { s with position_ := value.toNat } := by
  rw [setPositionProperty, bind_ok (ensureNotClosed_eq h.isOpen),
    if_neg (by omega), modify_apply]

theorem obeys_setPositionProperty (h : Ready s) (value : Int32) :
    Obeys (.setPositionProperty value) s := by
  rcases lt_or_ge value.toInt 0 with hnegative | hvalue
  · refine .inr ⟨_, if_pos hnegative, bind_error ?_⟩
    rw [MemoryStream.setPositionProperty, bind_ok (ensureNotClosed_eq h.isOpen),
      if_pos hnegative, throw_apply]
  · exact .inl ⟨if_neg hvalue.not_gt, _, bind_ok (setPositionProperty_ok h hvalue), rfl, h.isOpen,
      h.writable⟩

theorem seek_tail (h : Ready s) {target : ℤ} (hle : target ≤ intcsMax) (e : StreamException) :
    ((if target < 0 then throw e else do
        (if target ≤ intcsMax then setPositionProperty target else throw .diverged)
        pure target : Program StreamException MemoryStream ℤ) s) =
      if target < 0 then .error e s else .ok target { s with position_ := target.toNat } := by
  by_cases hnegative : target < 0
  · rw [if_pos hnegative, if_pos hnegative, throw_apply]
  · rw [if_neg hnegative, if_neg hnegative, if_pos hle,
      bind_ok (setPositionProperty_ok h (by omega)), pure_apply]

theorem obeys_seek (h : Ready s) {offset : Int32} {origin : SeekOrigin}
    (hadmissible : (MemoryCall.seek offset origin).Admissible s) :
    Obeys (.seek offset origin) s := by
  have hensure := ensureNotClosed_eq h.isOpen
  have hlength : getLengthProperty s = .ok (s.data_.length : ℤ) s := by
    rw [getLengthProperty, bind_ok hensure, get_bind, pure_apply]
  have hposition : getPositionProperty s = .ok (s.position_ : ℤ) s := by
    rw [getPositionProperty, bind_ok hensure, get_bind, pure_apply]
  have hseek : seek offset origin s =
      if MemoryCall.target offset s.position_ s.data_.length origin < 0 then
        .error MemoryCall.beforeBegin s
      else .ok (MemoryCall.target offset s.position_ s.data_.length origin) { s with
        position_ := (MemoryCall.target offset s.position_ s.data_.length origin).toNat } := by
    cases origin with
    | begin => exact (bind_ok (pure_apply _ _)).trans (seek_tail h hadmissible _)
    | current =>
      exact (bind_ok hposition).trans
        ((bind_ok (pure_apply _ _)).trans (seek_tail h hadmissible _))
    | end_ =>
      exact (bind_ok hlength).trans ((bind_ok (pure_apply _ _)).trans (seek_tail h hadmissible _))
  rcases lt_or_ge (MemoryCall.target offset s.position_ s.data_.length origin) 0 with hlt | hge
  · rw [if_pos hlt] at hseek
    exact .inr ⟨_, if_pos hlt, bind_error hseek⟩
  · rw [if_neg hge.not_gt] at hseek
    exact .inl ⟨if_neg hge.not_gt, _, bind_ok hseek, rfl, h.isOpen, h.writable⟩

theorem obeys_setLength (h : Ready s) (value : Int32) : Obeys (.setLength value) s := by
  have hensure := ensureNotClosed_eq h.isOpen
  rcases lt_or_ge value.toInt 0 with hnegative | hvalue
  · refine .inr ⟨_, if_pos hnegative, bind_error ?_⟩
    rw [MemoryStream.setLength, bind_ok hensure, if_pos hnegative, throw_apply]
  · have hset : ∃ s', MemoryStream.setLength value s = .ok () s' ∧ Ready s' ∧
        tape s' = (tape s).resize value.toInt.toNat := by
      rw [setLength, bind_ok hensure, if_neg (by omega), get_bind,
        if_neg (by rw [h.writable]; decide)]
      refine ⟨_, rfl, ⟨h.isOpen, h.writable⟩, ?_⟩
      simp only [tape, Tape.resize, Tape.mk.injEq, true_and]
      split <;> omega
    obtain ⟨s', hs', hready, htape⟩ := hset
    exact .inl ⟨if_neg hvalue.not_gt, s', bind_ok hs', htape, hready⟩

theorem obeys (h : Ready s) {call : MemoryCall} (hadmissible : call.Admissible s) :
    Obeys call s := by
  cases call with
  | read offset count => exact obeys_read h offset count
  | write buffer offset count inside => exact obeys_write h buffer offset count inside
  | writeByte value => exact obeys_writeByte h hadmissible
  | seek offset origin => exact obeys_seek h hadmissible
  | setPositionProperty value => exact obeys_setPositionProperty h value
  | setLength value => exact obeys_setLength h value

/-- The run lemma: what one call keeps is kept by all of them. -/
theorem follows_of_admitted {calls : List MemoryCall} (h : Ready s) (hadmitted : Admitted calls s) :
    Follows calls s (tape s) := by
  induction calls generalizing s with
  | nil => rfl
  | cons call calls ih =>
    obtain ⟨hadmissible, hrest⟩ := hadmitted
    refine ⟨rfl, ?_⟩
    rcases obeys h hadmissible with ⟨hfault, s', hs', htape, hready⟩ | ⟨e, hfault, he⟩
    · rw [hs', after_ok] at hrest
      rw [hfault]
      exact ⟨s', hs', htape ▸ ih hready hrest⟩
    · rw [he, after_error] at hrest
      rw [hfault]
      exact ⟨s, he, ih h hrest⟩

/-- **A memory stream is an array of bytes that is extended with zeros.**  In every history of an
open, writable stream whose bytes are put at positions up to the end, every call returns, leaves the
array that its kind leaves and reads the bytes that are there, unless its fault refuses it and leaves
the stream as it was; and `writeByte` writes what an array of one byte would exactly where nothing
has to be extended. -/
theorem zero_extended (h : Ready s) :
    (∀ calls : List MemoryCall, Admitted calls s → Follows calls s (tape s)) ∧
      ∀ value, writeByte value s = write [value] 0 1 s ↔
        s.position_ ≤ s.data_.length ∧ s.position_ < intcsMax :=
  ⟨fun _ => follows_of_admitted h, writeByte_eq_iff h⟩

/-- Three bytes, one more after a gap, and all of them read. -/
theorem zero_extended_gap :
    Follows [.write [1, 2, 3] 0 3 (by decide), .seek 2 .current, .write [9] 0 1 (by decide),
      .writeByte 4, .seek 0 .begin, .read 0 10] MemoryStream.empty ⟨[], 0⟩ :=
  (zero_extended ⟨rfl, rfl⟩).1 _ (by
    simp only [Admitted, MemoryCall.Admissible]
    decide +kernel)

/-- A byte put two places past the end stands at the end. -/
theorem writeByte_past_end :
    ¬Follows [.setPositionProperty 2, .writeByte 7] empty ⟨[], 0⟩ := by
  intro h
  obtain ⟨-, s', hs', -, s'', hs'', hend⟩ := h
  cases hs'
  cases hs''
  cases hend

end SharpRuntime.Analysis.MemoryStreams
