import SharpRuntime.Analysis.BinaryReading
import SharpRuntime.Machine.Utf16
import SharpRuntime.Machine.Utf8

/-!
# The characters a binary reader reads

On well-formed UTF-8 a reader is a list of UTF-16 code units: the pending one, when there is one,
and those of the text that has not been read.  `readChar` takes the first of them and `peekChar`
shows it.  Whatever the bytes are, `peekChar` leaves the reader as it was.
-/

set_option autoImplicit false

namespace SharpRuntime.Analysis.BinaryChars

open Machine Model Model.BinaryReader Interface
open BinaryReading
open MemoryStream

section Bytes

variable {r : BinaryReader}

variable {t : List UInt8}

theorem stream_readByte_cons (hr : Ready r) {b : UInt8} (hunread : unread r = b :: t) :
    stream readByte r = .ok (b.toNat : ℤ) (passBytes r 1) := by
  have hread := read_eq hr.isOpen 0 1
  change r.stream_.data_.drop r.stream_.position_ = b :: t at hunread
  rw [hunread] at hread
  have hbyte : readByte r.stream_
      = .ok (b.toNat : ℤ) (movedTo r.stream_ (r.stream_.position_ + 1)) := by
    exact bind_ok hread
  exact onField_ok hbyte

theorem stream_readByte_nil (hr : Ready r) (hunread : unread r = []) :
    stream readByte r = .ok (-1) r := by
  have hread := read_eq hr.isOpen 0 1
  change r.stream_.data_.drop r.stream_.position_ = [] at hunread
  rw [hunread] at hread
  have hbyte : readByte r.stream_ = .ok (-1) r.stream_ := by
    exact bind_ok hread
  exact onField_ok hbyte

theorem readContinuations_tailOf (hr : Ready r) (n codepoint c : ℕ)
    (hunread : unread r = Utf8.tailOf c :: t) :
    readContinuations (n + 1) codepoint r
      = readContinuations n (codepoint * 64 + c % 64) (passBytes r 1) := by
  obtain ⟨htail, hbits⟩ := Utf8.isTail_mask (Utf8.tailOf c)
  have hmask : ¬ Utf8.tailOf c &&& 0xC0 ≠ 0x80 := not_not.mpr (htail.mp (Utf8.isTail_tailOf c))
  have hvalue : (Utf8.tailOf c &&& 0x3F).toNat = c % 64 := by
    rw [hbits, Utf8.toNat_tailOf]
    omega
  have hbyte : UInt8.ofNat ((Utf8.tailOf c).toNat : ℤ).toNat = Utf8.tailOf c := by
    rw [Int.toNat_natCast, UInt8.ofNat_toNat]
  have hbound : c % 64 < 2 ^ 6 := Nat.mod_lt _ (by decide)
  rw [readContinuations, bind_ok (stream_readByte_cons hr hunread), if_neg (by omega), hbyte,
    if_neg hmask, hvalue, shiftLeft_or codepoint hbound]
  rfl

theorem readContinuations_tails (hr : Ready r) (codepoint : ℕ) (ds : List ℕ)
    (hunread : unread r = ds.map Utf8.tailOf ++ t) :
    readContinuations ds.length codepoint r
      = .ok (ds.foldl (fun codepoint d => codepoint * 64 + d % 64) codepoint)
          (passBytes r ds.length) := by
  induction ds generalizing r codepoint with
  | nil => rfl
  | cons d ds ih =>
    rw [List.length_cons, readContinuations_tailOf hr ds.length codepoint d hunread,
      ih (hr.passBytes 1) _ (unread_of_append (s := [_]) hunread), passBytes_passBytes, List.foldl_cons,
      Nat.add_comm 1]

end Bytes

theorem readLead_one {c : ℕ} (h : c < 0x80) (r : BinaryReader) :
    readLead (UInt8.ofNat c) r = .ok (c, 0, 0) r := by
  have hlead : ∀ c < 0x80, UInt8.ofNat c &&& 0x80 = 0x00 ∧ (UInt8.ofNat c).toNat = c := by decide
  obtain ⟨hzero, hvalue⟩ := hlead c h
  rw [readLead, if_pos hzero, pure_apply, hvalue]

variable {n : ℕ}

theorem readLead_two (hlow : 2 ≤ n) (h : n < 32) (r : BinaryReader) :
    readLead (UInt8.ofNat (0xC0 + n)) r = .ok (n, 0x80, 1) r := by
  have hlead : ∀ n < 32, 2 ≤ n → ¬ UInt8.ofNat (0xC0 + n) &&& 0x80 = 0x00 ∧
      (UInt8.ofNat (0xC0 + n) ≥ 0xC2 ∧ UInt8.ofNat (0xC0 + n) ≤ 0xDF) ∧
      (UInt8.ofNat (0xC0 + n) &&& 0x1F).toNat = n := by decide
  obtain ⟨hnonzero, hrange, hvalue⟩ := hlead n h hlow
  rw [readLead, if_neg hnonzero, if_pos hrange, pure_apply, hvalue]

theorem readLead_three (h : n < 16) (r : BinaryReader) :
    readLead (UInt8.ofNat (0xE0 + n)) r = .ok (n, 0x800, 2) r := by
  have hlead : ∀ n < 16, ¬ UInt8.ofNat (0xE0 + n) &&& 0x80 = 0x00 ∧
      ¬ (UInt8.ofNat (0xE0 + n) ≥ 0xC2 ∧ UInt8.ofNat (0xE0 + n) ≤ 0xDF) ∧
      (UInt8.ofNat (0xE0 + n) ≥ 0xE0 ∧ UInt8.ofNat (0xE0 + n) ≤ 0xEF) ∧
      (UInt8.ofNat (0xE0 + n) &&& 0x0F).toNat = n := by decide
  obtain ⟨hnonzero, hnot, hrange, hvalue⟩ := hlead n h
  rw [readLead, if_neg hnonzero, if_neg hnot, if_pos hrange, pure_apply, hvalue]

theorem readLead_four (h : n ≤ 4) (r : BinaryReader) :
    readLead (UInt8.ofNat (0xF0 + n)) r = .ok (n, 0x10000, 3) r := by
  have hlead : ∀ n ≤ 4, ¬ UInt8.ofNat (0xF0 + n) &&& 0x80 = 0x00 ∧
      ¬ (UInt8.ofNat (0xF0 + n) ≥ 0xC2 ∧ UInt8.ofNat (0xF0 + n) ≤ 0xDF) ∧
      ¬ (UInt8.ofNat (0xF0 + n) ≥ 0xE0 ∧ UInt8.ofNat (0xF0 + n) ≤ 0xEF) ∧
      (UInt8.ofNat (0xF0 + n) ≥ 0xF0 ∧ UInt8.ofNat (0xF0 + n) ≤ 0xF4) ∧
      (UInt8.ofNat (0xF0 + n) &&& 0x07).toNat = n := by decide
  obtain ⟨hnonzero, hnot, hnot', hrange, hvalue⟩ := hlead n h
  rw [readLead, if_neg hnonzero, if_neg hnot, if_neg hnot', if_pos hrange, pure_apply, hvalue]

section Character

variable {r : BinaryReader}

def withPending (low : UInt16) (r : BinaryReader) : BinaryReader :=
  { r with pendingCharacter_ := low, hasPendingCharacter_ := true }

variable {c minimum : ℕ}

theorem deliver_scalar (hc : Scalar c) (hminimum : minimum ≤ c) (r : BinaryReader) :
    (∃ u, utf16.encode c = [u] ∧ deliver c minimum r = .ok (some u) r) ∨
    ∃ high low, utf16.encode c = [high, low] ∧
      deliver c minimum r = .ok (some high) (withPending low r) := by
  have hvalid : ¬ (c < minimum ∨ c > 0x10FFFF ∨ (c ≥ 0xD800 ∧ c ≤ 0xDFFF)) := by
    rw [scalar_iff] at hc
    omega
  by_cases hsmall : c ≤ 0xFFFF
  · refine Or.inl ⟨UInt16.ofNat c, Utf16.encode_one (by omega), ?_⟩
    rw [deliver, if_neg hvalid, if_pos hsmall, pure_apply]
  · have hlow : (c - 0x10000) &&& 0x3FF = (c - 0x10000) % 1024 :=
      Nat.and_two_pow_sub_one_eq_mod (c - 0x10000) 10
    have hhigh : (c - 0x10000) >>> 10 = (c - 0x10000) / 1024 := Nat.shiftRight_eq_div_pow _ 10
    refine Or.inr ⟨_, _, Utf16.encode_two (by omega), ?_⟩
    rw [deliver, if_neg hvalid, if_neg hsmall, modify_bind, pure_apply, hlow, hhigh]
    rfl

variable {t : List UInt8}

theorem tryReadChar_cons (hr : Ready r) (hnone : r.hasPendingCharacter_ = false) {b : UInt8}
    (hunread : unread r = b :: t) {codepoint tails : ℕ}
    (hlead : ∀ r', readLead b r' = .ok (codepoint, minimum, tails) r') :
    tryReadChar r
      = (readContinuations tails codepoint >>= fun codepoint => deliver codepoint minimum)
          (passBytes r 1) := by
  have hbyte : UInt8.ofNat (b.toNat : ℤ).toNat = b := by rw [Int.toNat_natCast, UInt8.ofNat_toNat]
  rw [tryReadChar, bind_ok (throwIfDisposed_eq hr), get_bind, if_neg (by rw [hnone]; decide),
    bind_ok (stream_readByte_cons hr hunread), if_neg (by omega), hbyte, bind_ok (hlead _)]

theorem tryReadChar_encode (hr : Ready r) (hnone : r.hasPendingCharacter_ = false)
    (hc : Scalar c) (hunread : unread r = utf8.encode c ++ t) :
    ∃ minimum, minimum ≤ c ∧
      tryReadChar r = deliver c minimum (passBytes r (utf8.encode c).length) := by
  have hlt := hc.lt
  change unread r = Utf8.encode c ++ t at hunread
  change ∃ minimum, minimum ≤ c ∧
    tryReadChar r = deliver c minimum (passBytes r (Utf8.encode c).length)
  by_cases h1 : c < 0x80
  · rw [Utf8.encode_one h1] at hunread ⊢
    refine ⟨0, Nat.zero_le c, ?_⟩
    rw [tryReadChar_cons hr hnone hunread (readLead_one h1), readContinuations]
    rfl
  -- the code point of the continuation bytes is the scalar
  have htails : ∀ (lead : UInt8) (codepoint minimum : ℕ) (ds : List ℕ),
      (∀ r', readLead lead r' = .ok (codepoint, minimum, ds.length) r') →
      ds.foldl (fun codepoint d => codepoint * 64 + d % 64) codepoint = c →
      unread r = lead :: (ds.map Utf8.tailOf ++ t) →
      tryReadChar r = deliver c minimum (passBytes r (lead :: ds.map Utf8.tailOf).length) := by
    intro lead codepoint minimum ds hlead hvalue hbytes
    have hrest := readContinuations_tails (hr.passBytes 1) codepoint ds
      (unread_of_append (s := [lead]) hbytes)
    rw [tryReadChar_cons hr hnone hbytes hlead, bind_ok hrest, hvalue, passBytes_passBytes,
      List.length_cons, List.length_map, Nat.add_comm 1]
  by_cases h2 : c < 0x800
  · rw [Utf8.encode_two (by omega) h2] at hunread ⊢
    refine ⟨0x80, by omega, htails _ (c / 64) 0x80 [c] ?_ ?_ hunread⟩
    · exact readLead_two (by omega) (by omega)
    · grind
  by_cases h3 : c < 0x10000
  · rw [Utf8.encode_three (by omega) h3] at hunread ⊢
    refine ⟨0x800, by omega, htails _ (c / 4096) 0x800 [c / 64, c] ?_ ?_ hunread⟩
    · exact readLead_three (by omega)
    · simp
      omega
  · rw [Utf8.encode_four (by omega)] at hunread ⊢
    refine ⟨0x10000, by omega,
      htails _ (c / 262144) 0x10000 [c / 4096, c / 64, c] ?_ ?_ hunread⟩
    · exact readLead_four (by omega)
    · simp
      omega

end Character

/-- The reader stands for the code units: the pending one, then those of its text. -/
def StandsFor (r : BinaryReader) (us : List UInt16) : Prop :=
  Ready r ∧ ∃ cs, (∀ c ∈ cs, Scalar c) ∧ unread r = utf8.encodeAll cs ∧
    us = (if r.hasPendingCharacter_ then [r.pendingCharacter_] else []) ++ utf16.encodeAll cs

section Units

variable {r : BinaryReader} {us : List UInt16}

theorem readChar_eq {character : Option UInt16} {r' : BinaryReader}
    (h : tryReadChar r = .ok character r') :
    readChar r = match character with
      | some c => .ok c r'
      | none => .error .endOfStreamException r' := by
  rw [readChar, bind_ok h]
  cases character with
  | some c => rfl
  | none => rfl

theorem readChar_end (hr : Ready r) (hnone : r.hasPendingCharacter_ = false)
    (hunread : unread r = []) : readChar r = .error .endOfStreamException r := by
  have htry : tryReadChar r = .ok none r := by
    rw [tryReadChar, bind_ok (throwIfDisposed_eq hr), get_bind, if_neg (by rw [hnone]; decide),
      bind_ok (stream_readByte_nil hr hunread)]
    rfl
  exact readChar_eq htry

theorem readChar_pending (hr : Ready r) (hpending : r.hasPendingCharacter_ = true) :
    readChar r = .ok r.pendingCharacter_ { r with hasPendingCharacter_ := false } := by
  have htry : tryReadChar r
      = .ok (some r.pendingCharacter_) { r with hasPendingCharacter_ := false } := by
    rw [tryReadChar, bind_ok (throwIfDisposed_eq hr), get_bind, if_pos hpending]
    rfl
  exact readChar_eq htry

theorem readChar_cons {u : UInt16} (h : StandsFor r (u :: us)) :
    ∃ r', readChar r = .ok u r' ∧ StandsFor r' us := by
  obtain ⟨hr, cs, hcs, hunread, hunits⟩ := h
  cases hpending : r.hasPendingCharacter_ with
  | true =>
    rw [hpending, if_pos rfl, List.singleton_append] at hunits
    obtain ⟨rfl, rfl⟩ := List.cons.inj hunits
    exact ⟨_, readChar_pending hr hpending, ⟨hr.notDisposed, hr.isOpen⟩, cs, hcs, hunread, rfl⟩
  | false =>
    rw [hpending, if_neg (by decide), List.nil_append] at hunits
    cases cs with
    | nil => cases hunits
    | cons c cs =>
      have hc := hcs c List.mem_cons_self
      have hcs' : ∀ d ∈ cs, Scalar d := fun d hd => hcs d (List.mem_cons_of_mem c hd)
      rw [utf16.encodeAll_cons] at hunits
      obtain ⟨minimum, hminimum, htry⟩ := tryReadChar_encode hr hpending hc hunread
      have hrest := unread_of_append hunread
      rcases deliver_scalar hc hminimum (passBytes r (utf8.encode c).length) with
        ⟨v, hencode, hdeliver⟩ | ⟨high, low, hencode, hdeliver⟩
      · rw [hencode, List.singleton_append] at hunits
        obtain ⟨rfl, rfl⟩ := List.cons.inj hunits
        refine ⟨_, readChar_eq (htry.trans hdeliver), hr.passBytes _, cs, hcs', hrest, ?_⟩
        change _ = (if r.hasPendingCharacter_ then _ else _) ++ _
        rw [hpending, if_neg (by decide), List.nil_append]
      · rw [hencode] at hunits
        obtain ⟨rfl, rfl⟩ := List.cons.inj hunits
        exact ⟨_, readChar_eq (htry.trans hdeliver), ⟨hr.notDisposed, hr.isOpen⟩, cs, hcs', hrest,
          rfl⟩

theorem unread_of_nil (h : StandsFor r []) : r.hasPendingCharacter_ = false ∧ unread r = [] := by
  obtain ⟨hr, cs, hcs, hunread, hunits⟩ := h
  obtain ⟨hpending, htext⟩ := List.append_eq_nil_iff.mp hunits.symm
  constructor
  · grind
  · cases cs with
    | nil => exact hunread
    | cons c cs =>
      exact absurd (List.append_eq_nil_iff.mp htext).1 (utf16.encode_ne_nil c)

end Units

section Peek

/-- The state is as it was, but for the position and the pending code unit. -/
def SameSource (r r' : BinaryReader) : Prop :=
  r'.disposed_ = r.disposed_ ∧
    r'.stream_ = movedTo r.stream_ r'.stream_.position_

/-- The program changes nothing but the position and the pending code unit. -/
def Keeps {α : Type} (p : Program StreamException BinaryReader α) : Prop :=
  ∀ r, SameSource r (after (p r))

variable {α β : Type} {p : Program StreamException BinaryReader α}

theorem SameSource.refl (r : BinaryReader) : SameSource r r := ⟨rfl, rfl⟩

variable {r : BinaryReader}

theorem SameSource.trans {r' r'' : BinaryReader} (h : SameSource r r') (h' : SameSource r' r'') :
    SameSource r r'' := by
  refine ⟨h'.1.trans h.1, ?_⟩
  have hstream := h'.2
  rw [h.2] at hstream
  exact hstream

theorem Keeps.pure (a : α) : Keeps (Pure.pure a) := fun r => SameSource.refl r

theorem Keeps.throw (e : StreamException) : Keeps (throw e : Program StreamException BinaryReader α) :=
  fun r => SameSource.refl r

theorem Keeps.bind {f : α → Program StreamException BinaryReader β} (hp : Keeps p)
    (hf : ∀ a, Keeps (f a)) : Keeps (p >>= f) := by
  intro r
  have hkeeps := hp r
  cases hrun : p r with
  | ok a r' =>
    rw [hrun, after_ok] at hkeeps
    rw [bind_ok hrun]
    exact hkeeps.trans (hf a r')
  | error e r' =>
    rw [hrun, after_error] at hkeeps
    rw [bind_error hrun, after_error]
    exact hkeeps

theorem Keeps.ite {q : Program StreamException BinaryReader α} (b : Prop) [Decidable b]
    (hp : Keeps p) (hq : Keeps q) : Keeps (if b then p else q) := by
  split
  · exact hp
  · exact hq

theorem Keeps.get_bind {f : BinaryReader → Program StreamException BinaryReader β}
    (hf : ∀ r, SameSource r (after (f r r))) : Keeps (get >>= f) := hf

theorem throwIfDisposed_keeps : Keeps throwIfDisposed :=
  Keeps.get_bind fun r => Keeps.ite (r.disposed_ = true) (Keeps.throw _) (Keeps.pure ()) r

theorem after_read (offset count : ℤ) (m : MemoryStream) :
    after (read offset count m)
      = movedTo m (after (read offset count m)).position_ := by
  rw [MemoryStream.read]
  cases hopen : m.isOpen_ with
  | false =>
    have hensure : ensureNotClosed m
        = .error (.objectDisposedException "Cannot access a closed Stream.") m := by
      rw [ensureNotClosed, get_bind, if_neg (by rw [hopen]; decide), throw_apply]
    rw [bind_error hensure]
    rfl
  | true =>
    have hensure : ensureNotClosed m = .ok () m := by
      rw [ensureNotClosed, get_bind, if_pos hopen, pure_apply]
    rw [bind_ok hensure]
    split
    · rfl
    split
    · rfl
    rw [Machine.get_bind]
    by_cases hnone : min count ((m.data_.length : ℤ) - m.position_) ≤ 0
    · rw [if_pos hnone]
      rfl
    · rw [if_neg hnone]
      rfl

theorem stream_readByte_keeps : Keeps (stream readByte) := by
  intro r
  have hread := after_read 0 ((1 : ℕ) : ℤ) r.stream_
  have hbyte : after (MemoryStream.readByte r.stream_)
      = movedTo r.stream_ (after (MemoryStream.readByte r.stream_)).position_ := by
    rw [MemoryStream.readByte, Stream.readByte]
    cases hrun : MemoryStream.read 0 ((1 : ℕ) : ℤ) r.stream_ with
    | ok bytes m =>
      rw [hrun, after_ok] at hread
      rw [bind_ok hrun]
      cases bytes with
      | nil => exact hread
      | cons b bs => exact hread
    | error e m =>
      rw [hrun, after_error] at hread
      rw [bind_error hrun]
      exact hread
  cases hrun : readByte r.stream_ with
  | ok v m =>
    rw [hrun, after_ok] at hbyte
    rw [stream, onField_ok hrun]
    exact ⟨rfl, hbyte⟩
  | error e m =>
    rw [hrun, after_error] at hbyte
    rw [stream, onField_error hrun]
    exact ⟨rfl, hbyte⟩

theorem readLead_keeps (lead : UInt8) : Keeps (readLead lead) := by
  refine Keeps.ite _ (Keeps.pure _) (Keeps.ite _ (Keeps.pure _) (Keeps.ite _ (Keeps.pure _)
    (Keeps.ite _ (Keeps.pure _) (Keeps.throw _))))

theorem readContinuations_keeps (n codepoint : ℕ) : Keeps (readContinuations n codepoint) := by
  induction n generalizing codepoint with
  | zero => exact Keeps.pure codepoint
  | succ n ih =>
    refine stream_readByte_keeps.bind fun raw => Keeps.ite _ (Keeps.throw _) ?_
    exact Keeps.ite _ (Keeps.throw _) (ih _)

theorem deliver_keeps (codepoint minimum : ℕ) : Keeps (deliver codepoint minimum) := by
  refine Keeps.ite _ (Keeps.throw _) (Keeps.ite _ (Keeps.pure _) ?_)
  exact Keeps.bind (fun r => ⟨rfl, rfl⟩) fun _ => Keeps.pure _

theorem tryReadChar_keeps : Keeps tryReadChar := by
  refine throwIfDisposed_keeps.bind fun _ => Keeps.get_bind fun r => ?_
  by_cases hpending : r.hasPendingCharacter_ = true
  · rw [if_pos hpending]
    exact ⟨rfl, rfl⟩
  · rw [if_neg hpending]
    refine stream_readByte_keeps.bind (fun raw => Keeps.ite _ (Keeps.pure _) ?_) r
    refine (readLead_keeps _).bind fun lead => ?_
    exact (readContinuations_keeps _ _).bind fun codepoint => deliver_keeps codepoint _

theorem readChar_keeps : Keeps readChar := by
  refine tryReadChar_keeps.bind fun character => ?_
  cases character with
  | some c => exact Keeps.pure c
  | none => exact Keeps.throw _

theorem restoring_eq (hopen : r.stream_.isOpen_ = true)
    {p : Program StreamException BinaryReader UInt16} (hp : Keeps p) :
    restoring r.stream_.position_ r.hasPendingCharacter_ r.pendingCharacter_ p r
      = match p r with
        | .ok c _ => .ok (c.toNat : ℤ) r
        | .error e _ => .error e r := by
  have hback : ∀ r' : BinaryReader, SameSource r r' →
      stream (setPositionProperty r.stream_.position_) r'
        = .ok () { r' with stream_ := r.stream_ } := by
    intro r' h
    have hopen' : r'.stream_.isOpen_ = true := by
      rw [h.2]
      exact hopen
    have hensure : ensureNotClosed r'.stream_ = .ok () r'.stream_ := by
      rw [ensureNotClosed, get_bind, if_pos hopen', pure_apply]
    have hset : setPositionProperty r.stream_.position_ r'.stream_
        = .ok () r.stream_ := by
      rw [setPositionProperty, bind_ok hensure, if_neg (by omega), modify_apply, h.2]
      rfl
    exact onField_ok hset
  have hkeeps := hp r
  rw [restoring]
  cases hrun : p r with
  | ok c r' =>
    rw [hrun, after_ok] at hkeeps
    dsimp only
    rw [bind_ok (hback r' hkeeps), modify_bind, pure_apply, hkeeps.1]
  | error e r' =>
    rw [hrun, after_error] at hkeeps
    dsimp only
    rw [bind_ok (hback r' hkeeps), modify_bind, throw_apply, hkeeps.1]

theorem peekChar_eq (hr : Ready r) :
    peekChar r = if r.hasPendingCharacter_ then .ok (r.pendingCharacter_.toNat : ℤ) r
      else if unread r = [] then .ok (-1) r
      else match readChar r with
        | .ok c _ => .ok (c.toNat : ℤ) r
        | .error e _ => .error e r := by
  have hend : (r.stream_.position_ : ℤ) ≥ r.stream_.data_.length ↔ unread r = [] := by
    rw [unread, List.drop_eq_nil_iff]
    omega
  rw [peekChar, bind_ok (throwIfDisposed_eq hr), bind_ok (stream_getCanSeekProperty_eq hr),
    if_pos rfl, bind_ok (stream_getPositionProperty_eq hr), Machine.get_bind]
  by_cases hpending : r.hasPendingCharacter_ = true
  · rw [if_pos hpending, if_pos hpending, pure_apply]
  rw [if_neg hpending, if_neg hpending, bind_ok (stream_getLengthProperty_eq hr)]
  by_cases hnil : unread r = []
  · rw [if_pos (hend.mpr hnil), if_pos hnil, pure_apply]
  · rw [if_neg fun h => hnil (hend.mp h), if_neg hnil]
    exact restoring_eq hr.isOpen readChar_keeps

theorem after_peekChar (r : BinaryReader) : after (peekChar r) = r := by
  cases hdisposed : r.disposed_ with
  | true => simp [throwIfDisposed, Machine.get_bind, hdisposed, peekChar]
  | false =>
    cases hopen : r.stream_.isOpen_ with
    | true =>
      rw [peekChar_eq ⟨hdisposed, hopen⟩]
      split
      · rfl
      split
      · rfl
      cases readChar r with
      | ok c r' => rfl
      | error e r' => rfl
    | false =>
      have hthrow : throwIfDisposed r = .ok () r := by
        rw [throwIfDisposed, Machine.get_bind, if_neg (by rw [hdisposed]; decide), pure_apply]
      have hseek : getCanSeekProperty r.stream_ = .ok false r.stream_ := by
        rw [getCanSeekProperty, Machine.get_bind, pure_apply, hopen]
      rw [peekChar, bind_ok hthrow]
      exact congrArg after (bind_ok (onField_ok hseek))

end Peek

theorem call_refines (call : CharCall) (r : BinaryReader) (us : List UInt16) (h : StandsFor r us) :
    RefinesAt StandsFor call.onReader call.onUnits r us := by
  cases call with
  | readChar =>
    cases us with
    | nil =>
      obtain ⟨hnone, hunread⟩ := unread_of_nil h
      exact RefinesAt.of_error (bind_error (readChar_end h.1 hnone hunread)) rfl h
    | cons u us =>
      obtain ⟨r', hrun, hrest⟩ := readChar_cons h
      exact RefinesAt.of_ok (bind_ok hrun) rfl hrest
  | peekChar =>
    cases us with
    | nil =>
      obtain ⟨hnone, hunread⟩ := unread_of_nil h
      refine RefinesAt.of_ok ?_ rfl h
      rw [CharCall.onReader, peekChar_eq h.1, if_neg (by rw [hnone]; decide), if_pos hunread]
    | cons u us =>
      obtain ⟨r', hrun, hrest⟩ := readChar_cons h
      refine RefinesAt.of_ok ?_ rfl h
      rw [CharCall.onReader, peekChar_eq h.1]
      cases hpending : r.hasPendingCharacter_ with
      | true =>
        rw [readChar_pending h.1 hpending] at hrun
        cases hrun
        rfl
      | false =>
        have hsome : unread r ≠ [] := by
          intro hnil
          rw [readChar_end h.1 hpending hnil] at hrun
          cases hrun
        rw [if_neg (by decide), if_neg hsome, hrun]

end SharpRuntime.Analysis.BinaryChars
