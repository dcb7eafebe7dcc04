import SharpRuntime.Interface.BinaryFormat

/-!
# What a binary reader reads

Each call reads the value whose bytes come next and leaves the reader behind them, whatever comes
after.  A 7-bit encoded integer is read when its groups end in time; five groups that do not end,
or a fifth one with more than four bits, are refused as soon as the fifth byte has been read.
-/

set_option autoImplicit false

namespace SharpRuntime.Analysis.BinaryReading

open Machine Model Model.BinaryReader Interface
open UInt32
open MemoryStream

/-! ## The reader -/

/-- A reader that can be used. -/
structure Ready (r : BinaryReader) : Prop where
  notDisposed : r.disposed_ = false
  isOpen : r.stream_.isOpen_ = true

section Reader

variable {r : BinaryReader}

theorem Ready.passBytes (h : Ready r) (n : ℕ) : Ready (passBytes r n) := ⟨h.notDisposed, h.isOpen⟩

theorem passBytes_passBytes (r : BinaryReader) (m n : ℕ) :
    passBytes (passBytes r m) n = passBytes r (m + n) := by
  have hposition : r.stream_.position_ + m + n = r.stream_.position_ + (m + n) := Nat.add_assoc _ _ _
  rw [passBytes, passBytes, passBytes]
  change BinaryReader.mk (movedTo r.stream_ (r.stream_.position_ + m + n)) _ _ _ = _
  rw [hposition]

theorem unread_passBytes (r : BinaryReader) (n : ℕ) : unread (passBytes r n) = (unread r).drop n := by
  rw [unread, unread, List.drop_drop]
  rfl

theorem unread_of_append {s t : List UInt8} (h : unread r = s ++ t) :
    unread (passBytes r s.length) = t := by
  rw [unread_passBytes, h, List.drop_left]

theorem throwIfDisposed_eq (h : Ready r) : throwIfDisposed r = .ok () r := by
  rw [throwIfDisposed, get_bind, if_neg (by rw [h.notDisposed]; decide), pure_apply]

theorem read_eq {m : MemoryStream} (hopen : m.isOpen_ = true) (offset count : ℕ) :
    read offset count m
      = .ok ((m.data_.drop m.position_).take count)
          (movedTo m (m.position_ + ((m.data_.drop m.position_).take count).length)) := by
  have hensure : ensureNotClosed m = .ok () m := by
    rw [ensureNotClosed, get_bind, if_pos hopen, pure_apply]
  have hlength : ((m.data_.drop m.position_).take count).length
      = min count (m.data_.length - m.position_) := by
    rw [List.length_take, List.length_drop]
  rw [MemoryStream.read, bind_ok hensure, if_neg (by omega), if_neg (by omega), get_bind]
  by_cases hnone : min (count : ℤ) ((m.data_.length : ℤ) - m.position_) ≤ 0
  · have hnil : (m.data_.drop m.position_).take count = [] := by
      simp
      omega
    rw [if_pos hnone, hnil]
    rfl
  · have hcount : (min (count : ℤ) ((m.data_.length : ℤ) - m.position_)).toNat
        = min count (m.data_.length - m.position_) := by omega
    have htake : (m.data_.drop m.position_).take (min count (m.data_.length - m.position_))
        = (m.data_.drop m.position_).take count := by simp
    rw [if_neg hnone, hcount, htake, hlength]
    rfl

theorem stream_read_eq (h : Ready r) (offset count : ℕ) :
    stream (read offset count) r
      = .ok ((unread r).take count) (passBytes r ((unread r).take count).length) :=
  onField_ok (read_eq h.isOpen offset count)

end Reader

/-! ## Programs that read -/

/-- The program reads the value from the bytes, whatever comes after them. -/
def Reads {α : Type} (p : Program StreamException BinaryReader α) (bytes : List UInt8) (a : α) :
    Prop :=
  ∀ r, Ready r → ∀ t, unread r = bytes ++ t → p r = .ok a (passBytes r bytes.length)

section Reads

variable {α β : Type} {p : Program StreamException BinaryReader α} {s t : List UInt8} {a : α} {b : β}

theorem Reads.pure (a : α) : Reads (pure a) [] a := fun _ _ _ _ => rfl

theorem Reads.bind {f : α → Program StreamException BinaryReader β} (hp : Reads p s a)
    (hf : Reads (f a) t b) : Reads (p >>= f) (s ++ t) b := by
  intro r hr u hunread
  rw [List.append_assoc] at hunread
  rw [bind_ok (hp r hr _ hunread), hf _ (hr.passBytes _) u (unread_of_append hunread),
    passBytes_passBytes, List.length_append]

theorem Reads.map (hp : Reads p s a) (f : α → β) : Reads (p >>= fun a => Pure.pure (f a)) s (f a) := by
  have hbind := hp.bind (f := fun a => Pure.pure (f a)) (Reads.pure (f a))
  rw [List.append_nil] at hbind
  exact hbind

theorem readBytesExact_reads (bytes : List UInt8) : Reads (readBytesExact bytes.length) bytes bytes := by
  intro r hr t hunread
  have htake : (unread r).take bytes.length = bytes := by rw [hunread, List.take_left]
  rw [readBytesExact, bind_ok (throwIfDisposed_eq hr), readLoop]
  by_cases hnil : bytes = []
  · rw [hnil]
    rfl
  · have hpos : 0 < bytes.length := List.length_pos_iff.mpr hnil
    have hdone : readLoop bytes.length (0 + bytes.length) bytes.length (passBytes r bytes.length)
        = .ok [] (passBytes r bytes.length) := by
      obtain ⟨n, hn⟩ := Nat.exists_eq_succ_of_ne_zero hpos.ne'
      rw [hn, readLoop, if_neg (by omega), pure_apply]
    have hread := stream_read_eq hr 0 bytes.length
    rw [htake] at hread
    have hcount : (bytes.length : ℤ) - ((0 : ℕ) : ℤ) = bytes.length := by omega
    rw [if_pos hpos, hcount, bind_ok hread, if_neg hpos.ne', bind_ok hdone, pure_apply,
      List.append_nil]

theorem readByte_reads (b : UInt8) : Reads readByte [b] b := (readBytesExact_reads [b]).map _

theorem readByte_end {r : BinaryReader} (hr : Ready r) (hunread : unread r = []) :
    readByte r = .error .endOfStreamException r := by
  have hread := stream_read_eq hr 0 1
  rw [hunread] at hread
  have hloop : readLoop 2 0 1 r = .error .endOfStreamException r := by
    exact (bind_ok hread).trans rfl
  exact bind_error ((bind_ok (throwIfDisposed_eq hr)).trans hloop)

end Reads

/-! ## Numbers -/

theorem toNat_join_two (a b : UInt8) :
    (a.toUInt16 ||| (b.toUInt16 <<< 8)).toNat = ofBytes [a, b] := by
  have ha := a.toNat_lt
  have hb := b.toNat_lt
  have hshift : (b.toUInt16 <<< 8).toNat = b.toNat * 2 ^ 8 := by
    simp
    omega
  rw [UInt16.toNat_or, hshift, UInt8.toNat_toUInt16, Nat.or_comm, or_add b.toNat ha, ofBytes,
    ofBytes, ofBytes]
  omega

theorem toNat_shiftLeft_byte (b : UInt8) (s : UInt32) {k : ℕ} (hs : s.toNat % 32 = k)
    (hk : k + 8 ≤ 32) : (b.toUInt32 <<< s).toNat = b.toNat * 2 ^ k := by
  have hb := b.toNat_lt
  have hfits : b.toNat * 2 ^ k < 2 ^ 32 := calc
    b.toNat * 2 ^ k < 2 ^ 8 * 2 ^ k := Nat.mul_lt_mul_of_pos_right hb (Nat.two_pow_pos k)
    _ = 2 ^ (8 + k) := (Nat.pow_add 2 8 k).symm
    _ ≤ 2 ^ 32 := Nat.pow_le_pow_right (by decide) (by omega)
  rw [UInt32.toNat_shiftLeft, UInt8.toNat_toUInt32, hs, Nat.shiftLeft_eq, Nat.mod_eq_of_lt hfits]

theorem toNat_join_four (a b c d : UInt8) :
    (a.toUInt32 ||| (b.toUInt32 <<< 8) ||| (c.toUInt32 <<< 16) ||| (d.toUInt32 <<< 24)).toNat
      = ofBytes [a, b, c, d] := by
  have ha := a.toNat_lt
  have hb := b.toNat_lt
  have hc := c.toNat_lt
  rw [UInt32.toNat_or, UInt32.toNat_or, UInt32.toNat_or, UInt8.toNat_toUInt32,
    toNat_shiftLeft_byte b 8 (k := 8) rfl (by decide),
    toNat_shiftLeft_byte c 16 (k := 16) rfl (by decide),
    toNat_shiftLeft_byte d 24 (k := 24) rfl (by decide),
    Nat.or_comm a.toNat, or_add b.toNat ha, Nat.or_comm _ (c.toNat * 2 ^ 16),
    or_add c.toNat (show b.toNat * 2 ^ 8 + a.toNat < 2 ^ 16 by omega), Nat.or_comm _ (d.toNat * 2 ^ 24),
    or_add d.toNat (show c.toNat * 2 ^ 16 + (b.toNat * 2 ^ 8 + a.toNat) < 2 ^ 24 by omega), ofBytes,
    ofBytes, ofBytes, ofBytes, ofBytes]
  omega

theorem readInt16_reads (v : Int16) : Reads readInt16 (bytesOf 2 v.toUInt16.toNat) v := by
  have hword : (UInt8.ofNat v.toUInt16.toNat).toUInt16
      ||| ((UInt8.ofNat (v.toUInt16.toNat / 256)).toUInt16 <<< 8) = v.toUInt16 := by
    rw [← UInt16.toNat_inj, toNat_join_two]
    exact @ofBytes_bytesOf 2 _ v.toUInt16.toNat_lt
  have hread := (readBytesExact_reads (bytesOf 2 v.toUInt16.toNat)).map fun buf =>
    ((buf.getD 0 0).toUInt16 ||| ((buf.getD 1 0).toUInt16 <<< 8)).toInt16
  change Reads readInt16 _ ((UInt8.ofNat v.toUInt16.toNat).toUInt16
    ||| ((UInt8.ofNat (v.toUInt16.toNat / 256)).toUInt16 <<< 8)).toInt16 at hread
  rw [hword] at hread
  exact hread

theorem readInt32_reads (v : Int32) : Reads readInt32 (bytesOf 4 v.toUInt32.toNat) v := by
  have hword : (UInt8.ofNat v.toUInt32.toNat).toUInt32
      ||| ((UInt8.ofNat (v.toUInt32.toNat / 256)).toUInt32 <<< 8)
      ||| ((UInt8.ofNat (v.toUInt32.toNat / 256 / 256)).toUInt32 <<< 16)
      ||| ((UInt8.ofNat (v.toUInt32.toNat / 256 / 256 / 256)).toUInt32 <<< 24) = v.toUInt32 := by
    rw [← UInt32.toNat_inj, toNat_join_four]
    exact @ofBytes_bytesOf 4 _ v.toUInt32.toNat_lt
  have hread := (readBytesExact_reads (bytesOf 4 v.toUInt32.toNat)).map fun buf =>
    ((buf.getD 0 0).toUInt32 ||| ((buf.getD 1 0).toUInt32 <<< 8) |||
      ((buf.getD 2 0).toUInt32 <<< 16) ||| ((buf.getD 3 0).toUInt32 <<< 24)).toInt32
  change Reads readInt32 _ ((UInt8.ofNat v.toUInt32.toNat).toUInt32
    ||| ((UInt8.ofNat (v.toUInt32.toNat / 256)).toUInt32 <<< 8)
    ||| ((UInt8.ofNat (v.toUInt32.toNat / 256 / 256)).toUInt32 <<< 16)
    ||| ((UInt8.ofNat (v.toUInt32.toNat / 256 / 256 / 256)).toUInt32 <<< 24)).toInt32 at hread
  rw [hword] at hread
  exact hread

theorem readUInt32_reads (v : UInt32) : Reads readUInt32 (bytesOf 4 v.toNat) v :=
  (readInt32_reads v.toInt32).map _

theorem readInt64_reads (v : Int64) : Reads readInt64 (bytesOf 8 v.toUInt64.toNat) v := by
  have hlt := v.toUInt64.toNat_lt
  have hlow : (ofNat v.toUInt64.toNat).toNat = v.toUInt64.toNat % 256 ^ 4 :=
    toNat_ofNat'
  have hhigh : (ofNat (v.toUInt64.toNat / 256 ^ 4)).toNat = v.toUInt64.toNat / 256 ^ 4 := by
    rw [toNat_ofNat']
    omega
  have hword : ((ofNat (v.toUInt64.toNat / 256 ^ 4)).toUInt64 <<< 32)
      ||| (ofNat v.toUInt64.toNat).toUInt64 = v.toUInt64 := by
    have hshift : ((ofNat (v.toUInt64.toNat / 256 ^ 4)).toUInt64 <<< 32).toNat
        = v.toUInt64.toNat / 256 ^ 4 * 2 ^ 32 := by
      rw [UInt64.toNat_shiftLeft, toNat_toUInt64, hhigh]
      change (v.toUInt64.toNat / 256 ^ 4) <<< 32 % 2 ^ 64 = _
      omega
    rw [← UInt64.toNat_inj, UInt64.toNat_or, hshift, toNat_toUInt64, hlow,
      or_add _ (show v.toUInt64.toNat % 256 ^ 4 < 2 ^ 32 by omega)]
    omega
  have hread := (readUInt32_reads (ofNat v.toUInt64.toNat)).bind
    (f := fun lo => do
      let hi ← readUInt32
      pure ((hi.toUInt64 <<< 32) ||| lo.toUInt64).toInt64)
    ((readUInt32_reads (ofNat (v.toUInt64.toNat / 256 ^ 4))).map fun hi =>
      ((hi.toUInt64 <<< 32) ||| (ofNat v.toUInt64.toNat).toUInt64).toInt64)
  rw [hlow, hhigh, bytesOf_mod, ← bytesOf_add 4 4, hword] at hread
  exact hread

theorem readBoolean_reads (v : Bool) : Reads readBoolean [if v then 1 else 0] v := by
  have hread := (readByte_reads (if v then 1 else 0)).map fun b => b != 0
  cases v with
  | false => exact hread
  | true => exact hread

/-! ## Groups of seven bits -/

/-- The exception of five groups that do not end, or of a fifth one that is too large. -/
def tooManyBytes : StreamException :=
  .runtime (.format "Too many bytes in what should have been a 7-bit encoded integer.")

variable {result : UInt32}

theorem toNat_or_group {shift : ℕ} (h : result.toNat < 2 ^ shift)
    (hshift : shift + 7 ≤ 32) (b : UInt8) :
    (result ||| ((b.toUInt32 &&& 0x7F) <<< UInt32.ofNat shift)).toNat
      = result.toNat + b.toNat % 128 * 2 ^ shift := by
  have hmask : (b.toUInt32 &&& 0x7F).toNat = b.toNat % 128 := by
    exact Nat.and_two_pow_sub_one_eq_mod b.toNat 7
  have hamount : (UInt32.ofNat shift).toNat % 32 = shift := by
    rw [toNat_ofNat']
    omega
  have hfits : b.toNat % 128 * 2 ^ shift < 2 ^ 32 := calc
    b.toNat % 128 * 2 ^ shift < 2 ^ 7 * 2 ^ shift :=
      Nat.mul_lt_mul_of_pos_right (Nat.mod_lt _ (by decide)) (Nat.two_pow_pos shift)
    _ = 2 ^ (7 + shift) := (Nat.pow_add 2 7 shift).symm
    _ ≤ 2 ^ 32 := Nat.pow_le_pow_right (by decide) (by omega)
  rw [UInt32.toNat_or, UInt32.toNat_shiftLeft, hmask, hamount, Nat.shiftLeft_eq,
    Nat.mod_eq_of_lt hfits, Nat.or_comm, or_add _ h, Nat.add_comm]

theorem toNat_or_fifth (h : result.toNat < 2 ^ 28) {b : UInt8} (hb : b.toNat ≤ 0x0F) :
    (result ||| (b.toUInt32 <<< UInt32.ofNat 28)).toNat = result.toNat + b.toNat * 2 ^ 28 := by
  have hshift : (b.toUInt32 <<< UInt32.ofNat 28).toNat = b.toNat * 2 ^ 28 := by
    change b.toNat <<< 28 % 2 ^ 32 = _
    omega
  rw [UInt32.toNat_or, hshift, Nat.or_comm, or_add _ h, Nat.add_comm]

/-! ### The forms -/

variable {s : List UInt8}

theorem isEncoded_zero_iff : IsEncoded 0 s ↔ ∃ b, s = [b] ∧ b.toNat ≤ 0x0F := by
  constructor
  · rintro ⟨cs, b, rfl, -, -, hlength, hlast⟩
    obtain rfl := List.length_eq_zero_iff.mp (Nat.le_zero.mp hlength)
    exact ⟨b, rfl, hlast rfl⟩
  · rintro ⟨b, rfl, hb⟩
    exact ⟨[], b, rfl, nofun, hb.trans (by decide), Nat.le_refl 0, fun _ => hb⟩

theorem isEncoded_succ_iff {n : ℕ} : IsEncoded (n + 1) s ↔
      (∃ b, s = [b] ∧ b.toNat ≤ 0x7F) ∨ ∃ c s', s = c :: s' ∧ Continues c ∧ IsEncoded n s' := by
  constructor
  · rintro ⟨cs, b, rfl, hcs, hb, hlength, hlast⟩
    cases cs with
    | nil => exact Or.inl ⟨b, rfl, hb⟩
    | cons c cs =>
      refine Or.inr ⟨c, cs ++ [b], rfl, hcs c List.mem_cons_self, cs, b, rfl, ?_, hb, ?_, ?_⟩
      · exact fun d hd => hcs d (List.mem_cons_of_mem c hd)
      · exact Nat.le_of_succ_le_succ hlength
      · exact fun hn => hlast (congrArg (· + 1) hn)
  · rintro (⟨b, rfl, hb⟩ | ⟨c, s', rfl, hc, cs, b, rfl, hcs, hb, hlength, hlast⟩)
    · exact ⟨[], b, rfl, nofun, hb, Nat.zero_le _, nofun⟩
    · refine ⟨c :: cs, b, rfl, ?_, hb, Nat.succ_le_succ hlength, ?_⟩
      · exact fun d hd => (List.mem_cons.mp hd).elim (fun h => h ▸ hc) (hcs d)
      · exact fun hn => hlast (Nat.succ.inj hn)

theorem encoded_or (n : ℕ) (l : List UInt8) :
    (∃ s t, l = s ++ t ∧ IsEncoded n s) ∨
    (∃ cs b t, l = cs ++ b :: t ∧ (∀ c ∈ cs, Continues c) ∧ cs.length = n ∧ 0x0F < b.toNat) ∨
    ((∀ c ∈ l, Continues c) ∧ l.length ≤ n) := by
  induction n generalizing l with
  | zero =>
    cases l with
    | nil => exact Or.inr (Or.inr ⟨nofun, Nat.le_refl 0⟩)
    | cons b t =>
      by_cases hb : b.toNat ≤ 0x0F
      · exact Or.inl ⟨[b], t, rfl, isEncoded_zero_iff.mpr ⟨b, rfl, hb⟩⟩
      · exact Or.inr (Or.inl ⟨[], b, t, rfl, nofun, rfl, Nat.lt_of_not_le hb⟩)
  | succ n ih =>
    cases l with
    | nil => exact Or.inr (Or.inr ⟨nofun, Nat.zero_le _⟩)
    | cons c l =>
      by_cases hc : c.toNat ≤ 0x7F
      · exact Or.inl ⟨[c], l, rfl, isEncoded_succ_iff.mpr (Or.inl ⟨c, rfl, hc⟩)⟩
      have hcontinues : Continues c := Nat.lt_of_not_le hc
      have hmem : ∀ {cs : List UInt8}, (∀ d ∈ cs, Continues d) → ∀ d ∈ c :: cs, Continues d :=
        fun hcs d hd => (List.mem_cons.mp hd).elim (fun h => h ▸ hcontinues) (hcs d)
      rcases ih l with ⟨s, t, rfl, hs⟩ | ⟨cs, b, t, rfl, hcs, hlength, hb⟩ | ⟨hall, hlength⟩
      · exact Or.inl ⟨c :: s, t, rfl, isEncoded_succ_iff.mpr (Or.inr ⟨c, s, rfl, hcontinues, hs⟩)⟩
      · exact Or.inr (Or.inl ⟨c :: cs, b, t, rfl, hmem hcs, congrArg (· + 1) hlength, hb⟩)
      · exact Or.inr (Or.inr ⟨hmem hall, Nat.succ_le_succ hlength⟩)

/-! ### The loop -/

section Loop

variable {r : BinaryReader} {n shift : ℕ} {result : UInt32}

theorem readGroups_end (hr : Ready r) (hunread : unread r = []) :
    readGroups n shift result r = .error .endOfStreamException r := by
  cases n with
  | zero => exact bind_error (readByte_end hr hunread)
  | succ n => exact bind_error (readByte_end hr hunread)

variable {b : UInt8} {t : List UInt8}

theorem readGroups_zero_cons (hr : Ready r) (hunread : unread r = b :: t) :
    readGroups 0 shift result r
      = if b.toNat ≤ 0x0F then
          .ok (result ||| (b.toUInt32 <<< ofNat shift)).toInt32 (passBytes r 1)
        else .error tooManyBytes (passBytes r 1) := by
  have hlimit : b > 0b1111 ↔ ¬ b.toNat ≤ 0x0F := by
    rw [gt_iff_lt, UInt8.lt_iff_toNat_lt, not_le]
    rfl
  rw [readGroups, bind_ok (readByte_reads b r hr t hunread)]
  by_cases hb : b.toNat ≤ 0x0F
  · rw [if_pos hb, if_neg (fun h => hlimit.mp h hb)]
    rfl
  · rw [if_neg hb, if_pos (hlimit.mpr hb)]
    rfl

theorem readGroups_succ_cons (hr : Ready r) (hunread : unread r = b :: t) :
    readGroups (n + 1) shift result r
      = if b.toNat ≤ 0x7F then
          .ok (result ||| ((b.toUInt32 &&& 0x7F) <<< ofNat shift)).toInt32 (passBytes r 1)
        else
          readGroups n (shift + 7) (result ||| ((b.toUInt32 &&& 0x7F) <<< ofNat shift))
            (passBytes r 1) := by
  have hlimit : b ≤ 0x7F ↔ b.toNat ≤ 0x7F := UInt8.le_iff_toNat_le
  rw [readGroups, bind_ok (readByte_reads b r hr t hunread)]
  by_cases hb : b.toNat ≤ 0x7F
  · rw [if_pos hb]
    exact congrFun (if_pos (hlimit.mpr hb)) _
  · grind

theorem readGroups_encoded (hshift : shift + 7 * n = 28) (h : result.toNat < 2 ^ shift)
    (hr : Ready r) {s : List UInt8} (hs : IsEncoded n s) (hunread : unread r = s ++ t) :
    ∃ v : Int32, v.toUInt32.toNat = result.toNat + groupsValue s * 2 ^ shift ∧
      readGroups n shift result r = .ok v (passBytes r s.length) := by
  induction n generalizing shift result r s with
  | zero =>
    obtain ⟨b, rfl, hb⟩ := isEncoded_zero_iff.mp hs
    obtain rfl : shift = 28 := by omega
    have hvalue : groupsValue [b] = b.toNat := by
      rw [groupsValue, groupsValue]
      omega
    refine ⟨(result ||| (b.toUInt32 <<< ofNat 28)).toInt32, ?_, ?_⟩
    · rw [hvalue]
      exact toNat_or_fifth h hb
    · rw [readGroups_zero_cons hr hunread, if_pos hb]
      rfl
  | succ n ih =>
    rcases isEncoded_succ_iff.mp hs with ⟨b, rfl, hb⟩ | ⟨c, s', rfl, hc, hs'⟩
    · refine ⟨(result ||| ((b.toUInt32 &&& 0x7F) <<< ofNat shift)).toInt32, ?_, ?_⟩
      · exact toNat_or_group h (by omega) b
      · rw [readGroups_succ_cons hr hunread, if_pos hb]
        rfl
    · have hgroup := toNat_or_group h (show shift + 7 ≤ 32 by omega) c
      have hfits : (result ||| ((c.toUInt32 &&& 0x7F) <<< ofNat shift)).toNat
          < 2 ^ (shift + 7) := by
        have hpow : 2 ^ (shift + 7) = 2 ^ shift * 128 := Nat.pow_add 2 shift 7
        have hle : c.toNat % 128 * 2 ^ shift ≤ 127 * 2 ^ shift :=
          Nat.mul_le_mul_right _ (by omega)
        omega
      have hnot : ¬ c.toNat ≤ 0x7F := Nat.not_le_of_lt hc
      obtain ⟨v, hvalue, hrun⟩ := ih (show shift + 7 + 7 * n = 28 by omega) hfits (hr.passBytes 1) hs'
        (unread_of_append (s := [c]) hunread)
      refine ⟨v, ?_, ?_⟩
      · grind [groupsValue]
      · rw [readGroups_succ_cons hr hunread, if_neg hnot, hrun, passBytes_passBytes, Nat.add_comm]
        rfl

theorem readGroups_refused (hr : Ready r) {cs : List UInt8}
    (hcs : ∀ c ∈ cs, Continues c) (hlength : cs.length = n) (hb : 0x0F < b.toNat)
    (hunread : unread r = cs ++ b :: t) :
    readGroups n shift result r = .error tooManyBytes (passBytes r (n + 1)) := by
  induction n generalizing shift result r cs with
  | zero => grind [readGroups_zero_cons]
  | succ n ih =>
    cases cs with
    | nil => cases hlength
    | cons c cs =>
      have hnot : ¬ c.toNat ≤ 0x7F := Nat.not_le_of_lt (hcs c List.mem_cons_self)
      rw [readGroups_succ_cons hr hunread, if_neg hnot,
        ih (hr.passBytes 1) (fun d hd => hcs d (List.mem_cons_of_mem c hd)) (Nat.succ.inj hlength)
          (unread_of_append (s := [c]) hunread), passBytes_passBytes, Nat.add_comm 1]

theorem readGroups_cut (hr : Ready r) (hall : ∀ c ∈ unread r, Continues c)
    (hlength : (unread r).length ≤ n) :
    readGroups n shift result r = .error .endOfStreamException (passBytes r (unread r).length) := by
  induction n generalizing shift result r with
  | zero =>
    have hnil := List.length_eq_zero_iff.mp (Nat.le_zero.mp hlength)
    rw [readGroups_end hr hnil, hnil]
    rfl
  | succ n ih =>
    cases hunread : unread r with
    | nil =>
      rw [readGroups_end hr hunread]
      rfl
    | cons c cs =>
      rw [hunread] at hall hlength
      have hrest : unread (passBytes r 1) = cs := unread_of_append (s := [c]) hunread
      have hnot : ¬ c.toNat ≤ 0x7F := Nat.not_le_of_lt (hall c List.mem_cons_self)
      have hloop : readGroups n (shift + 7)
          (result ||| ((c.toUInt32 &&& 0x7F) <<< ofNat shift)) (passBytes r 1)
          = .error .endOfStreamException (passBytes (passBytes r 1) (unread (passBytes r 1)).length) :=
        ih (hr.passBytes 1)
        (hrest ▸ fun d hd => hall d (List.mem_cons_of_mem c hd))
        (hrest ▸ Nat.le_of_succ_le_succ hlength)
      rw [readGroups_succ_cons hr hunread, if_neg hnot, hloop, hrest, passBytes_passBytes, Nat.add_comm]
      rfl

end Loop

/-! ## 7-bit encoded integers -/

section EncodedInt

variable {r : BinaryReader}

theorem read7BitEncodedInt_encoded (hr : Ready r) {s t : List UInt8} (hs : IsEncoded 4 s)
    (hunread : unread r = s ++ t) :
    ∃ v : Int32, v.toUInt32.toNat = groupsValue s ∧
      read7BitEncodedInt r = .ok v (passBytes r s.length) := by
  obtain ⟨v, hvalue, hrun⟩ := readGroups_encoded (show 0 + 7 * 4 = 28 from rfl)
    (show (0 : UInt32).toNat < 2 ^ 0 by decide) hr hs hunread
  refine ⟨v, ?_, hrun⟩
  simp [hvalue]

theorem read7BitEncodedInt_ok_iff (hr : Ready r) (v : Int32) (r' : BinaryReader) :
    read7BitEncodedInt r = .ok v r' ↔
      ∃ s t, unread r = s ++ t ∧ IsEncoded 4 s ∧ v.toUInt32.toNat = groupsValue s ∧
        r' = passBytes r s.length := by
  constructor
  · intro hrun
    rcases encoded_or 4 (unread r) with ⟨s, t, hunread, hs⟩ | ⟨cs, b, t, hunread, hcs, hlength, hb⟩ |
      ⟨hall, hlength⟩
    · obtain ⟨w, hvalue, hw⟩ := read7BitEncodedInt_encoded hr hs hunread
      grind
    · rw [read7BitEncodedInt, readGroups_refused hr hcs hlength hb hunread] at hrun
      cases hrun
    · rw [read7BitEncodedInt, readGroups_cut hr hall hlength] at hrun
      cases hrun
  · rintro ⟨s, t, hunread, hs, hvalue, rfl⟩
    obtain ⟨w, hw, hrun⟩ := read7BitEncodedInt_encoded hr hs hunread
    have hsame : w = v := Int32.toBitVec_inj.mp (BitVec.eq_of_toNat_eq (hw.trans hvalue.symm))
    rw [hrun, hsame]

theorem read7BitEncodedInt_error_iff (hr : Ready r) (e : StreamException) (r' : BinaryReader) :
    read7BitEncodedInt r = .error e r' ↔
      (∃ cs b t, unread r = cs ++ b :: t ∧ (∀ c ∈ cs, Continues c) ∧ cs.length = 4 ∧
        0x0F < b.toNat ∧ e = tooManyBytes ∧ r' = passBytes r 5) ∨
      ((∀ c ∈ unread r, Continues c) ∧ (unread r).length ≤ 4 ∧ e = .endOfStreamException ∧
        r' = passBytes r (unread r).length) := by
  constructor
  · intro hrun
    rcases encoded_or 4 (unread r) with ⟨s, t, hunread, hs⟩ | ⟨cs, b, t, hunread, hcs, hlength, hb⟩ |
      ⟨hall, hlength⟩
    · obtain ⟨w, hvalue, hw⟩ := read7BitEncodedInt_encoded hr hs hunread
      rw [hw] at hrun
      cases hrun
    · rw [read7BitEncodedInt, readGroups_refused hr hcs hlength hb hunread] at hrun
      cases hrun
      exact Or.inl ⟨cs, b, t, hunread, hcs, hlength, hb, rfl, rfl⟩
    · rw [read7BitEncodedInt, readGroups_cut hr hall hlength] at hrun
      cases hrun
      exact Or.inr ⟨hall, hlength, rfl, rfl⟩
  · rintro (⟨cs, b, t, hunread, hcs, hlength, hb, rfl, rfl⟩ | ⟨hall, hlength, rfl, rfl⟩)
    · exact readGroups_refused hr hcs hlength hb hunread
    · exact readGroups_cut hr hall hlength

theorem isEncoded_groups {k n : ℕ} (h : n < 2 ^ (4 + 7 * k)) : IsEncoded k (groups n) := by
  induction k generalizing n with
  | zero =>
    have hbyte : (UInt8.ofNat n).toNat ≤ 0x0F := by
      rw [UInt8.toNat_ofNat']
      omega
    rw [groups, if_pos (by omega)]
    exact isEncoded_zero_iff.mpr ⟨_, rfl, hbyte⟩
  | succ k ih =>
    rw [groups]
    by_cases hsmall : n ≤ 0x7F
    · have hbyte : (UInt8.ofNat n).toNat ≤ 0x7F := by
        rw [UInt8.toNat_ofNat']
        omega
      rw [if_pos hsmall]
      exact isEncoded_succ_iff.mpr (Or.inl ⟨_, rfl, hbyte⟩)
    · have hbyte : Continues (UInt8.ofNat (0x80 + n % 128)) := by
        rw [Continues, UInt8.toNat_ofNat']
        omega
      have hdiv : n / 128 < 2 ^ (4 + 7 * k) := by
        rw [Nat.div_lt_iff_lt_mul (by decide)]
        calc n < 2 ^ (4 + 7 * (k + 1)) := h
          _ = 2 ^ (4 + 7 * k) * 128 := Nat.pow_add 2 (4 + 7 * k) 7
      rw [if_neg hsmall]
      exact isEncoded_succ_iff.mpr (Or.inr ⟨_, _, rfl, hbyte, ih hdiv⟩)

theorem groupsValue_groups (n : ℕ) : groupsValue (groups n) = n := by
  induction n using Nat.strong_induction_on with
  | h n ih =>
    rw [groups]
    by_cases hsmall : n ≤ 0x7F
    · simp [hsmall, groupsValue]
      omega
    · rw [if_neg hsmall, groupsValue, ih (n / 128) (by omega), UInt8.toNat_ofNat']
      omega

theorem read7BitEncodedInt_reads (v : Int32) :
    Reads read7BitEncodedInt (groups v.toUInt32.toNat) v := by
  intro r hr t hunread
  exact (read7BitEncodedInt_ok_iff hr v _).mpr
    ⟨_, t, hunread, isEncoded_groups v.toUInt32.toNat_lt, (groupsValue_groups _).symm, rfl⟩

end EncodedInt

/-! ## Strings -/

section Strings

variable {r : BinaryReader}

theorem stream_getCanSeekProperty_eq (hr : Ready r) :
    stream getCanSeekProperty r = .ok true r := by
  have hseek : getCanSeekProperty r.stream_ = .ok true r.stream_ := by
    rw [getCanSeekProperty, get_bind, pure_apply, hr.isOpen]
  exact onField_ok hseek

theorem ensureNotClosed_eq (hr : Ready r) :
    ensureNotClosed r.stream_ = .ok () r.stream_ := by
  rw [ensureNotClosed, get_bind, if_pos hr.isOpen, pure_apply]

theorem stream_getLengthProperty_eq (hr : Ready r) :
    stream getLengthProperty r = .ok (r.stream_.data_.length : ℤ) r := by
  have hlength : getLengthProperty r.stream_
      = .ok (r.stream_.data_.length : ℤ) r.stream_ := by
    rw [getLengthProperty, bind_ok (ensureNotClosed_eq hr), get_bind, pure_apply]
  exact onField_ok hlength

theorem stream_getPositionProperty_eq (hr : Ready r) :
    stream getPositionProperty r = .ok (r.stream_.position_ : ℤ) r := by
  have hposition : getPositionProperty r.stream_
      = .ok (r.stream_.position_ : ℤ) r.stream_ := by
    rw [getPositionProperty, bind_ok (ensureNotClosed_eq hr), get_bind, pure_apply]
  exact onField_ok hposition

variable {bytes : List UInt8}

theorem readStringBytes_reads {length : Int32}
    (h : length.toInt = bytes.length) : Reads (readStringBytes length) bytes bytes := by
  intro r hr t hunread
  have hnat : length.toInt.toNat = bytes.length := by rw [h, Int.toNat_natCast]
  have hnonneg : ¬ length < 0 := by
    rw [Int32.lt_iff_toInt_lt, h, Int32.toInt_zero]
    omega
  rw [readStringBytes, if_neg hnonneg]
  by_cases hzero : length = 0
  · have hnil : bytes = [] := by
      rw [hzero, Int32.toInt_zero] at h
      exact List.length_eq_zero_iff.mp (by omega)
    rw [if_pos hzero, hnil]
    rfl
  · have hlength := congrArg List.length hunread
    rw [unread, List.length_drop, List.length_append] at hlength
    have hfits : ¬ ((r.stream_.data_.length : ℤ) - r.stream_.position_ ≥ 0 ∧
        length.toInt > (r.stream_.data_.length : ℤ) - r.stream_.position_) := by
      omega
    rw [if_neg hzero, bind_ok (stream_getCanSeekProperty_eq hr), if_pos rfl,
      bind_ok (stream_getLengthProperty_eq hr), bind_ok (stream_getPositionProperty_eq hr),
      if_neg hfits, hnat]
    exact readBytesExact_reads bytes r hr t hunread

theorem readString_reads (h : bytes.length < 2 ^ 31) :
    Reads readString (groups bytes.length ++ bytes) bytes := by
  have hword : (Int32.ofInt (bytes.length : ℤ)).toUInt32.toNat = bytes.length := by
    change (BitVec.ofInt 32 (bytes.length : ℤ)).toNat = bytes.length
    rw [BitVec.toNat_ofInt]
    omega
  have hvalue : (Int32.ofInt (bytes.length : ℤ)).toInt = bytes.length :=
    Int32.toInt_ofInt_of_le (by omega) (by omega)
  have hlength := read7BitEncodedInt_reads (Int32.ofInt bytes.length)
  rw [hword] at hlength
  exact hlength.bind (readStringBytes_reads hvalue)

end Strings

/-! ## Values -/

theorem read_reads (v : BinaryValue) (h : v.Fits) : Reads v.type.read v.encoding v := by
  cases v with
  | byte v => exact (readByte_reads v).map _
  | sbyte v => exact ((readByte_reads v.toUInt8).map _).map _
  | int16 v => exact (readInt16_reads v).map _
  | uint16 v => exact ((readInt16_reads v.toInt16).map _).map _
  | int32 v => exact (readInt32_reads v).map _
  | uint32 v => exact (readUInt32_reads v).map _
  | int64 v => exact (readInt64_reads v).map _
  | uint64 v => exact ((readInt64_reads v.toInt64).map _).map _
  | bool v => exact (readBoolean_reads v).map _
  | float bits => exact (readUInt32_reads bits).map _
  | double bits => exact ((readInt64_reads bits.toInt64).map _).map _
  | encodedInt v => exact (read7BitEncodedInt_reads v).map _
  | string bytes => exact (readString_reads h).map _

theorem readAll_reads (vs : List BinaryValue) (h : ∀ v ∈ vs, v.Fits) :
    Reads (readAll (vs.map BinaryValue.type)) (encodings vs) vs := by
  induction vs with
  | nil => exact Reads.pure []
  | cons v vs ih =>
    have hvs := ih fun u hu => h u (List.mem_cons_of_mem v hu)
    exact (read_reads v (h v List.mem_cons_self)).bind (hvs.map _)

end SharpRuntime.Analysis.BinaryReading
