import SharpRuntime.Analysis.BinaryChars
import SharpRuntime.Analysis.BinaryWriting

/-!
# What a binary writer wrote, a binary reader reads

The values that were written are read back in order, and the reading ends where the writing ended.
-/

set_option autoImplicit false

namespace SharpRuntime.Analysis.BinaryRoundTrip

open Machine Model Interface
open BinaryReading BinaryWriting
open BinaryReader
open BinaryValue

theorem readAll_writeAll {m : MemoryStream} (hopen : m.isOpen_ = true)
    (hwritable : m.writable_ = true) (hposition : m.position_ ≤ intcsMax) {vs : List BinaryValue}
    (hvs : ∀ v ∈ vs, v.Fits) (hfits : m.position_ + (encodings vs).length ≤ intcsMax) :
    ∃ m', writeAll vs ⟨m, false⟩ = .ok () ⟨m', false⟩ ∧
      m'.position_ = m.position_ + (encodings vs).length ∧
      (m.position_ = m.data_.length → m'.position_ = m'.data_.length) ∧
      readAll (vs.map type) (new (movedTo m' m.position_))
        = .ok vs (new m') := by
  obtain ⟨⟨m', disposed⟩, hrun, hready, htape⟩ := (writeAll_writes vs hvs).fits ⟨m, false⟩
    ⟨rfl, hopen, hwritable, hposition⟩ hfits
  obtain rfl : disposed = false := hready.notDisposed
  have hend := position_of_tape htape
  have hunread : unread (new (movedTo m' m.position_))
      = encodings vs ++ m.data_.drop (m.position_ + (encodings vs).length) := by
    have hrest := Tape.rest_put (tape m) (encodings vs)
    rw [← htape] at hrest
    exact hrest
  have hback : passBytes (new (movedTo m' m.position_)) (encodings vs).length
      = new m' := by
    change new (movedTo m' (m.position_ + (encodings vs).length)) = _
    rw [← hend]
    rfl
  refine ⟨m', hrun, hend, ?_, ?_⟩
  · intro hatEnd
    have hcontent : m'.data_ = m.data_ ++ encodings vs :=
      (congrArg Tape.content htape).trans (Tape.content_put_of_end hatEnd _)
    rw [hcontent, List.length_append, hend, hatEnd]
  · rw [readAll_reads vs hvs _ ⟨rfl, hready.isOpen⟩ _ hunread, hback]

theorem groups_ne_nil (n : ℕ) : groups n ≠ [] := by
  rw [groups]
  split <;> exact List.cons_ne_nil _ _

/-- **Values round-trip, encoded integers are delimited exactly, and characters are the code units
of the text.**  Values are written exactly when the stream stays within `2 ^ 31 - 1` bytes, and
then they are read back from where they were written, up to where the writing ended.  A 7-bit
encoded integer is accepted exactly when at most five groups end it, the fifth of them at most
`0x0F`; what is accepted, or refused at the fifth byte, is all that is consumed.  On well-formed
UTF-8 any sequence of `readChar` and `peekChar` calls is answered as on the list of its UTF-16 code
units, and on any bytes at all a `peekChar` leaves the reader as it was. -/
theorem binary_round_trip :
    (∀ (m : MemoryStream) (vs : List BinaryValue), m.isOpen_ = true → m.writable_ = true →
      m.position_ ≤ intcsMax → (∀ v ∈ vs, v.Fits) →
      if m.position_ + (encodings vs).length ≤ intcsMax then
        ∃ m', writeAll vs ⟨m, false⟩ = .ok () ⟨m', false⟩ ∧
          m'.position_ = m.position_ + (encodings vs).length ∧
          (m.position_ = m.data_.length → m'.position_ = m'.data_.length) ∧
          readAll (vs.map type) (new (movedTo m' m.position_))
            = .ok vs (new m')
      else ∃ w, writeAll vs ⟨m, false⟩ = .error (.io "Stream was too long.") w) ∧
    (∀ r : BinaryReader, r.disposed_ = false → r.stream_.isOpen_ = true →
      (∀ v r', read7BitEncodedInt r = .ok v r' ↔
        ∃ s t, unread r = s ++ t ∧ IsEncoded 4 s ∧ v.toUInt32.toNat = groupsValue s ∧
          r' = passBytes r s.length) ∧
      (∀ e r', read7BitEncodedInt r = .error e r' ↔
        (∃ cs b t, unread r = cs ++ b :: t ∧ (∀ c ∈ cs, Continues c) ∧ cs.length = 4 ∧
          0x0F < b.toNat ∧ e = tooManyBytes ∧ r' = passBytes r 5) ∨
        ((∀ c ∈ unread r, Continues c) ∧ (unread r).length ≤ 4 ∧ e = .endOfStreamException ∧
          r' = passBytes r (unread r).length))) ∧
    (∀ (r : BinaryReader) (cs : List ℕ) (calls : List CharCall), r.disposed_ = false →
      r.stream_.isOpen_ = true → r.hasPendingCharacter_ = false → (∀ c ∈ cs, Scalar c) →
      unread r = utf8.encodeAll cs →
      answers CharCall.onReader calls r = answers CharCall.onUnits calls (utf16.encodeAll cs)) ∧
    ∀ r : BinaryReader, after (peekChar r) = r := by
  refine ⟨?_, ?_, ?_, BinaryChars.after_peekChar⟩
  · intro m vs hopen hwritable hposition hvs
    split
    case isTrue hfits => exact readAll_writeAll hopen hwritable hposition hvs hfits
    case isFalse hlong =>
      exact (writeAll_writes vs hvs).tooLong ⟨m, false⟩ ⟨rfl, hopen, hwritable, hposition⟩
        (Nat.lt_of_not_le hlong)
  · intro r hdisposed hopen
    exact ⟨read7BitEncodedInt_ok_iff ⟨hdisposed, hopen⟩,
      read7BitEncodedInt_error_iff ⟨hdisposed, hopen⟩⟩
  · intro r cs calls hdisposed hopen hnone hcs hunread
    have hunits : BinaryChars.StandsFor r (utf16.encodeAll cs) := by
      refine ⟨⟨hdisposed, hopen⟩, cs, hcs, hunread, ?_⟩
      rw [hnone, if_neg (by decide), List.nil_append]
    exact (run_refines BinaryChars.call_refines calls hunits).1

/-- A long, a truth value and a short, written to an empty stream and read back. -/
theorem binary_round_trip_three :
    ∃ m', writeAll [.int64 (-5), .bool true, .uint16 65000] ⟨MemoryStream.empty, false⟩
        = .ok () ⟨m', false⟩ ∧
      readAll [.int64, .bool, .uint16] (new (movedTo m' 0))
        = .ok [.int64 (-5), .bool true, .uint16 65000] (new m') := by
  have hvs : ∀ v ∈ [int64 (-5), .bool true, .uint16 65000], v.Fits := by
    simp [Fits]
  have hrun := binary_round_trip.1 MemoryStream.empty _ rfl rfl (Nat.zero_le _) hvs
  obtain ⟨m', hwrite, -, -, hread⟩ := hrun
  exact ⟨m', hwrite, hread⟩

/-- A string of `intcsMax` bytes is a value of the format, but no stream that holds `intcsMax`
bytes at most can hold it behind its length. -/
theorem longest_string_refused {s : List UInt8} (hlength : s.length = intcsMax) :
    (∀ v ∈ [string s], v.Fits) ∧
    ∀ w, writeAll [.string s] ⟨MemoryStream.empty, false⟩ ≠ .ok () w := by
  have hvs : ∀ v ∈ [string s], v.Fits := by
    intro v hv
    rw [List.mem_singleton.mp hv, Fits, hlength]
    decide
  have hbehind : (encodings [.string s]).length = (groups s.length).length + intcsMax := by
    grind [encodings, encoding]
  have hlong : intcsMax < MemoryStream.empty.position_ + (encodings [.string s]).length := by
    rw [hbehind]
    exact Nat.lt_of_lt_of_le
      (Nat.lt_add_of_pos_left (List.length_pos_iff.mpr (groups_ne_nil s.length)))
      (Nat.le_add_left _ _)
  refine ⟨hvs, fun w hrun => ?_⟩
  obtain ⟨w', herror⟩ := (writeAll_writes _ hvs).tooLong ⟨MemoryStream.empty, false⟩
    ⟨rfl, rfl, rfl, Nat.zero_le _⟩ hlong
  rw [herror] at hrun
  cases hrun

/-- A string of `2 ^ 31 - 1` bytes has a length below `2 ^ 31`, but no memory stream can hold it
behind its length. -/
theorem not_binary_round_trip :
    (∀ v ∈ [string (List.replicate 2147483647 0)], v.Fits) ∧
    ∀ w, writeAll [.string (List.replicate 2147483647 0)] ⟨MemoryStream.empty, false⟩
      ≠ .ok () w :=
  longest_string_refused List.length_replicate

end SharpRuntime.Analysis.BinaryRoundTrip
