import SharpRuntime.Interface.BinaryFormat

/-!
# What a binary writer writes

Each call writes the bytes of its value at the position of the stream, or throws when the stream
would grow past its limit.  Calls made one after the other write their bytes one after the other,
so a list of values is written as the bytes of the list.
-/

set_option autoImplicit false
set_option maxRecDepth 20000

namespace SharpRuntime.Analysis.BinaryWriting

open Machine Model Model.BinaryWriter Interface
open MemoryStream

def tape (m : MemoryStream) : Tape UInt8 := ⟨m.data_, m.position_⟩

def tooLong : StreamException := .io "Stream was too long."

theorem written_eq (data : List UInt8) (position : ℕ) (bytes : List UInt8) :
    written data position bytes = overlay data position bytes := by
  rw [MemoryStream.written]
  split
  case isTrue hgrow => exact overlay_zeroPadded (by omega)
  case isFalse => rfl

section Stream

variable {m : MemoryStream}

theorem ensureNotClosed_eq (h : m.isOpen_ = true) : ensureNotClosed m = .ok () m := by
  rw [ensureNotClosed, get_bind, if_pos h, pure_apply]

variable {bytes : List UInt8}

theorem write_eq (hopen : m.isOpen_ = true) (hwritable : m.writable_ = true) (hne : bytes ≠ []) :
    write bytes 0 bytes.length m
      = if h : m.position_ + bytes.length > intcsMax then .error tooLong m
        else .ok () { m with
          data_ := written m.data_ m.position_ bytes
          position_ := m.position_ + bytes.length
          size_le := by
            have hle := m.size_le
            rw [length_written]
            omega } := by
  have hcount : ¬ (bytes.length : ℤ) = 0 := fun hzero =>
    hne (List.length_eq_zero_iff.mp (Int.natCast_eq_zero.mp hzero))
  have hregion : (bytes.drop (0 : ℤ).toNat).take (bytes.length : ℤ).toNat = bytes := by simp
  rw [write, bind_ok (ensureNotClosed_eq hopen), get_bind,
    if_neg (by rw [hwritable]; decide), if_neg (by decide), if_neg (by omega), if_neg hcount]
  simp only [hregion]
  split <;> rfl

theorem write_ok (hopen : m.isOpen_ = true) (hwritable : m.writable_ = true)
    (hfits : m.position_ + bytes.length ≤ intcsMax) :
    ∃ m', write bytes 0 bytes.length m = .ok () m' ∧ m'.isOpen_ = true ∧
      m'.writable_ = true ∧ tape m' = (tape m).put bytes := by
  by_cases hnil : bytes = []
  · have hzero : ((([] : List UInt8).length : ℕ) : ℤ) = 0 := rfl
    refine ⟨m, ?_, hopen, hwritable, ?_⟩
    · rw [hnil, write, bind_ok (ensureNotClosed_eq hopen), get_bind,
        if_neg (by rw [hwritable]; decide), if_neg (by decide), if_neg (by decide), if_pos hzero,
        pure_apply]
    · rw [hnil, Tape.put_nil]
  · refine ⟨_, (write_eq hopen hwritable hnil).trans (dif_neg (by omega)), hopen, hwritable, ?_⟩
    rw [Tape.put_of_ne_nil _ hnil]
    exact congrArg (Tape.mk · _) (written_eq m.data_ m.position_ bytes)

theorem write_tooLong (hopen : m.isOpen_ = true) (hwritable : m.writable_ = true) (hne : bytes ≠ [])
    (hlong : intcsMax < m.position_ + bytes.length) :
    write bytes 0 bytes.length m = .error tooLong m :=
  (write_eq hopen hwritable hne).trans (dif_pos hlong)

end Stream

/-- A writer that can be used. -/
structure Ready (w : BinaryWriter) : Prop where
  notDisposed : w.disposed_ = false
  isOpen : w.stream_.isOpen_ = true
  writable : w.stream_.writable_ = true
  inRange : w.stream_.position_ ≤ intcsMax

/-- The program writes the bytes, or throws when they do not fit the stream. -/
structure Writes (p : Program StreamException BinaryWriter Unit) (bytes : List UInt8) : Prop where
  fits : ∀ w, Ready w → w.stream_.position_ + bytes.length ≤ intcsMax →
    ∃ w', p w = .ok () w' ∧ Ready w' ∧ tape w'.stream_ = (tape w.stream_).put bytes
  tooLong : ∀ w, Ready w → intcsMax < w.stream_.position_ + bytes.length →
    ∃ w', p w = .error tooLong w'

variable {bytes : List UInt8}

theorem position_of_tape {m m' : MemoryStream}
    (h : tape m' = (tape m).put bytes) : m'.position_ = m.position_ + bytes.length :=
  (congrArg Tape.position h).trans (Tape.position_put _ _)

theorem Writes.nil : Writes (pure ()) [] where
  fits w hw _ := ⟨w, rfl, hw, (Tape.put_nil _).symm⟩
  tooLong _ hw hlong := absurd hlong (Nat.not_lt.mpr hw.inRange)

theorem Writes.append {p q : Program StreamException BinaryWriter Unit} {a b : List UInt8}
    (hp : Writes p a) (hq : Writes q b) : Writes (p >>= fun _ => q) (a ++ b) where
  fits w hw hfits := by
    rw [List.length_append] at hfits
    obtain ⟨w₁, hrun₁, hw₁, htape₁⟩ := hp.fits w hw (by omega)
    have hposition := position_of_tape htape₁
    obtain ⟨w₂, hrun₂, hw₂, htape₂⟩ := hq.fits w₁ hw₁ (by omega)
    refine ⟨w₂, ?_, hw₂, ?_⟩
    · rw [bind_ok hrun₁, hrun₂]
    · rw [htape₂, htape₁, Tape.put_put]
  tooLong w hw hlong := by
    rw [List.length_append] at hlong
    by_cases hfirst : w.stream_.position_ + a.length ≤ intcsMax
    · obtain ⟨w₁, hrun₁, hw₁, htape₁⟩ := hp.fits w hw hfirst
      have hposition := position_of_tape htape₁
      obtain ⟨w₂, hrun₂⟩ := hq.tooLong w₁ hw₁ (by omega)
      exact ⟨w₂, (bind_ok hrun₁).trans hrun₂⟩
    · obtain ⟨w₁, hrun₁⟩ := hp.tooLong w hw (by omega)
      exact ⟨w₁, bind_error hrun₁⟩

theorem throwIfDisposed_eq {w : BinaryWriter} (h : w.disposed_ = false) :
    throwIfDisposed w = .ok () w := by
  rw [throwIfDisposed, get_bind, if_neg (by rw [h]; decide), pure_apply]

theorem writeBytes_writes (bytes : List UInt8) : Writes (writeBytes bytes bytes.length) bytes where
  fits w hw hfits := by
    obtain ⟨m', hrun, hopen, hwritable, htape⟩ := write_ok hw.isOpen hw.writable hfits
    refine ⟨{ w with stream_ := m' }, ?_, ⟨hw.notDisposed, hopen, hwritable, ?_⟩, htape⟩
    · rw [writeBytes, bind_ok (throwIfDisposed_eq hw.notDisposed)]
      exact onField_ok hrun
    · exact (position_of_tape htape).trans_le hfits
  tooLong w hw hlong := by
    have hne : bytes ≠ [] := by
      rintro rfl
      exact absurd hlong (Nat.not_lt.mpr hw.inRange)
    refine ⟨w, ?_⟩
    rw [writeBytes, bind_ok (throwIfDisposed_eq hw.notDisposed)]
    exact onField_error (write_tooLong hw.isOpen hw.writable hne hlong)

theorem setWidth_sshiftRight_and {w : ℕ} (x : BitVec w) (s : ℕ) (h : s + 8 ≤ w) :
    ((x.sshiftRight s &&& 0xFF#w).setWidth 8) = x.extractLsb' s 8 := by
  ext i hi
  have hmask : Nat.testBit 255 i = true :=
    (Nat.testBit_two_pow_sub_one 8 i).trans (decide_eq_true hi)
  have hw : i < w := by omega
  have hs : s + i < w := by omega
  rw [BitVec.getElem_setWidth, BitVec.getLsbD_and, BitVec.getLsbD_ofNat, hmask, decide_eq_true hw,
    BitVec.getLsbD_sshiftRight, if_pos hs, BitVec.getElem_extractLsb', Bool.and_true,
    Bool.and_true, decide_eq_false (by omega), Bool.not_false, Bool.true_and]

variable (v : Int32)

variable {k : ℕ}

theorem toByte_shiftRight (s : Int32) (hs : (s.toBitVec.smod 32).toNat = k) (hk : k + 8 ≤ 32) :
    toByte ((v >>> s) &&& 0xFF) = UInt8.ofNat (v.toUInt32.toNat / 2 ^ k) := by
  have hbits : (toByte ((v >>> s) &&& 0xFF)).toBitVec = v.toBitVec.extractLsb' k 8 := by
    rw [← setWidth_sshiftRight_and v.toBitVec k hk, ← hs, ← BitVec.sshiftRight_eq']
    simp [toByte]
  rw [← UInt8.toNat_inj, UInt8.toNat_ofNat', ← UInt8.toNat_toBitVec, hbits,
    BitVec.extractLsb'_toNat, Nat.shiftRight_eq_div_pow]
  rfl

theorem toByte_low : toByte (v &&& 0xFF) = UInt8.ofNat v.toUInt32.toNat := by
  have hzero : v >>> (0 : Int32) = v := by
    simp
  have hbyte := toByte_shiftRight v 0 (k := 0) rfl (by decide)
  grind

theorem toNat_toInt32 (v : Int16) : v.toInt32.toUInt32.toNat % 2 ^ 16 = v.toUInt16.toNat := by
  have hbits : v.toInt32.toUInt32.toNat = (v.toBitVec.signExtend 32).toNat := by
    rfl
  have hword : v.toBitVec.toNat = v.toUInt16.toNat := rfl
  rw [hbits, BitVec.toNat_signExtend, BitVec.toNat_setWidth, hword]
  split <;> omega

theorem longByte_shiftRight (v s : Int64) (hs : (s.toBitVec.smod 64).toNat = k) (hk : k + 8 ≤ 64) :
    ((v >>> s) &&& 0xFF).toUInt64.toUInt8 = UInt8.ofNat (v.toUInt64.toNat / 2 ^ k) := by
  have hbits : ((v >>> s) &&& 0xFF).toUInt64.toUInt8.toBitVec = v.toBitVec.extractLsb' k 8 := by
    rw [← setWidth_sshiftRight_and v.toBitVec k hk, ← hs, ← BitVec.sshiftRight_eq']
    simp
  rw [← UInt8.toNat_inj, UInt8.toNat_ofNat', ← UInt8.toNat_toBitVec, hbits,
    BitVec.extractLsb'_toNat, Nat.shiftRight_eq_div_pow]
  rfl

theorem writeShortcs_writes (v : Int16) :
    Writes (writeShortcs v) (bytesOf 2 v.toUInt16.toNat) := by
  have hword := toNat_toInt32 v
  have hlow : UInt8.ofNat v.toInt32.toUInt32.toNat = UInt8.ofNat v.toUInt16.toNat := by
    rw [← UInt8.toNat_inj, UInt8.toNat_ofNat', UInt8.toNat_ofNat']
    omega
  have hhigh : UInt8.ofNat (v.toInt32.toUInt32.toNat / 2 ^ 8)
      = UInt8.ofNat (v.toUInt16.toNat / 2 ^ 8) := by
    rw [← UInt8.toNat_inj, UInt8.toNat_ofNat', UInt8.toNat_ofNat']
    omega
  have hbytes : bytesOf 2 v.toUInt16.toNat
      = [toByte (v.toInt32 &&& 0xFF), toByte ((v.toInt32 >>> 8) &&& 0xFF)] := by
    rw [toByte_low, toByte_shiftRight v.toInt32 8 (k := 8) rfl (by decide), hlow, hhigh]
    rfl
  rw [hbytes]
  exact writeBytes_writes _

theorem writeIntcs_writes : Writes (writeIntcs v) (bytesOf 4 v.toUInt32.toNat) := by
  have hbytes : bytesOf 4 v.toUInt32.toNat = [toByte (v &&& 0xFF), toByte ((v >>> 8) &&& 0xFF),
      toByte ((v >>> 16) &&& 0xFF), toByte ((v >>> 24) &&& 0xFF)] := by
    rw [toByte_low, toByte_shiftRight v 8 (k := 8) rfl (by decide),
      toByte_shiftRight v 16 (k := 16) rfl (by decide),
      toByte_shiftRight v 24 (k := 24) rfl (by decide), bytesOf_eq_map]
    simp [List.range_succ]
  rw [hbytes]
  exact writeBytes_writes _

theorem writeLongcs_writes (v : Int64) : Writes (writeLongcs v) (bytesOf 8 v.toUInt64.toNat) := by
  have hshift : ∀ i < 8, ((Int64.ofNat (i * 8)).toBitVec.smod 64).toNat = i * 8 := by decide
  have hbytes : bytesOf 8 v.toUInt64.toNat = (List.range 8).map fun i =>
      ((v >>> Int64.ofNat (i * 8)) &&& 0xFF).toUInt64.toUInt8 := by
    rw [bytesOf_eq_map]
    refine List.map_congr_left fun i hi => ?_
    have hlt := List.mem_range.mp hi
    exact (longByte_shiftRight v _ (hshift i hlt) (by omega)).symm
  rw [hbytes]
  exact writeBytes_writes _

theorem toUInt8_or_not (u : UInt32) :
    (u ||| ~~~0x7F).toUInt8 = UInt8.ofNat (0x80 + u.toNat % 128) := by
  have hor : ∀ b : UInt8, b ||| 0x80 = UInt8.ofNat (0x80 + b.toNat % 128) := by decide
  have hmask : ((~~~0x7F : UInt32)).toUInt8 = 0x80 := rfl
  have hbits : u.toUInt8.toNat % 128 = u.toNat % 128 := by
    rw [UInt32.toNat_toUInt8]
    omega
  rw [UInt32.toUInt8_or, hmask, hor, hbits]

theorem writeGroups_writes (u : UInt32) : Writes (writeGroups u) (groups u.toNat) := by
  induction hn : u.toNat using Nat.strong_induction_on generalizing u with
  | h n ih =>
    subst hn
    have hlimit : (0x7F : UInt32).toNat = 0x7F := rfl
    rw [writeGroups, groups]
    by_cases hlarge : u > 0x7F
    · have hnat : ¬ u.toNat ≤ 0x7F := by
        have hlt := UInt32.lt_iff_toNat_lt.mp hlarge
        omega
      have hshift := toNat_shiftRight_seven u
      rw [if_pos hlarge, if_neg hnat, ← hshift, ← toUInt8_or_not]
      exact (writeBytes_writes [(u ||| ~~~0x7F).toUInt8]).append (ih _ (by omega) _ rfl)
    · have hnat : u.toNat ≤ 0x7F := Nat.le_of_not_lt fun hlt =>
        hlarge (UInt32.lt_iff_toNat_lt.mpr (hlimit ▸ hlt))
      have hbyte : UInt8.ofNat u.toNat = u.toUInt8 := rfl
      rw [if_neg hlarge, if_pos hnat, hbyte]
      exact writeBytes_writes [u.toUInt8]

theorem writeString_writes (h : bytes.length < 2 ^ 31) :
    Writes (writeString bytes) (groups bytes.length ++ bytes) := by
  have hsize : toIntcs bytes.length = bytes.length := toIntcs_of_le (Nat.le_sub_one_of_lt h)
  have hword : (Int32.ofInt (bytes.length : ℤ)).toUInt32.toNat = bytes.length := by
    change (BitVec.ofInt 32 (bytes.length : ℤ)).toNat = bytes.length
    rw [BitVec.toNat_ofInt]
    omega
  rw [writeString, hsize]
  refine Writes.append ?_ (writeBytes_writes bytes)
  have hgroups := writeGroups_writes (Int32.ofInt (bytes.length : ℤ)).toUInt32
  rw [hword] at hgroups
  exact hgroups

theorem write_writes (v : BinaryValue) (h : v.Fits) : Writes v.write v.encoding := by
  cases v with
  | byte v => exact writeBytes_writes [v]
  | sbyte v => exact writeBytes_writes [v.toUInt8]
  | int16 v => exact writeShortcs_writes v
  | uint16 v => exact writeShortcs_writes v.toInt16
  | int32 v => exact writeIntcs_writes v
  | uint32 v => exact writeIntcs_writes v.toInt32
  | int64 v => exact writeLongcs_writes v
  | uint64 v => exact writeLongcs_writes v.toInt64
  | bool v => exact writeBytes_writes [if v then 1 else 0]
  | float bits => exact writeIntcs_writes bits.toInt32
  | double bits => exact writeLongcs_writes bits.toInt64
  | encodedInt v => exact writeGroups_writes v.toUInt32
  | string bytes => exact writeString_writes h

theorem writeAll_writes (vs : List BinaryValue) (h : ∀ v ∈ vs, v.Fits) :
    Writes (writeAll vs) (encodings vs) := by
  induction vs with
  | nil => exact Writes.nil
  | cons v vs ih =>
    have hv := write_writes v (h v List.mem_cons_self)
    exact hv.append (ih fun u hu => h u (List.mem_cons_of_mem v hu))

end SharpRuntime.Analysis.BinaryWriting
