import SharpRuntime.Analysis.CrcTables

/-!
# The parameter sets compute cyclic redundancy checks

One byte of `update` multiplies the register by `X ^ 8` and adds the byte times `X ^ w`, whichever
way the bits are oriented (`step_class`).  A run of `update` is therefore the register fed with the
bits of the message, and what the register holds is the remainder of the message.  Concatenation
and exclusive or of messages follow from the same classes.
-/

set_option autoImplicit false

namespace SharpRuntime.Analysis.CrcUpdate

open Machine Model Interface CrcTables Polynomial
open CrcParameterSet

variable {w : ℕ} {polynomial : BitVec w} {reflect : Bool} {table : List (BitVec w)}

theorem reverse_xor (u v : BitVec w) : (u ^^^ v).reverse = u.reverse ^^^ v.reverse := by grind

theorem oriented_xor (u v : BitVec w) :
    oriented reflect (u ^^^ v) = oriented reflect u ^^^ oriented reflect v := by
  cases reflect with
  | false => rfl
  | true => exact reverse_xor u v

variable (v : BitVec w) (s : List UInt8)

theorem oriented_oriented : oriented reflect (oriented reflect v) = v := by
  cases reflect with
  | false => rfl
  | true => exact BitVec.reverse_reverse_eq

def stepByte (reflect : Bool) (table : List (BitVec w)) (crc : BitVec w) (b : UInt8) : BitVec w :=
  if reflect then stepReflected table crc b
  else stepDirect table crc b

theorem entry_class (h : Tabulates polynomial reflect table) (idx : BitVec 8) :
    classOf polynomial (toPoly (oriented reflect (table.getD idx.toNat 0)))
      = classOf polynomial (X ^ w * toPoly (oriented reflect idx)) := by
  rw [h.entry idx.toNat idx.isLt, BitVec.ofNat_toNat, BitVec.setWidth_eq]

theorem setWidth_byte (hw : 8 ≤ w) (b : BitVec 8) : (b.setWidth w).setWidth 8 = b := by grind

theorem toPoly_low_reverse (hw : 8 ≤ w) (crc : BitVec w) :
    toPoly (crc.setWidth 8).reverse = toPoly (crc.reverse >>> (w - 8)) := by grind [toPoly_congr]

theorem toPoly_top (hw : 8 ≤ w) (crc : BitVec w) :
    toPoly ((crc >>> (w - 8)).setWidth 8) = toPoly (crc >>> (w - 8)) := by grind [toPoly_congr]

theorem reverse_ushiftRight (crc : BitVec w) (k : ℕ) :
    (crc >>> k).reverse = crc.reverse <<< k := by grind

/-- **One byte of `update`** multiplies by `X ^ 8` and adds the byte times `X ^ w`. -/
theorem step_class (hw : 8 ≤ w) (h : Tabulates polynomial reflect table) (crc : BitVec w)
    (b : UInt8) :
    classOf polynomial (toPoly (oriented reflect (stepByte reflect table crc b)))
      = classOf polynomial (X ^ 8 * toPoly (oriented reflect crc)
          + X ^ w * toPoly (oriented reflect b.toBitVec)) := by
  have hsplit := X_pow_mul_toPoly hw (oriented reflect crc)
  cases reflect with
  | false =>
    have hidx : ((crc >>> (w - 8)) ^^^ b.toBitVec.setWidth w).setWidth 8
        = (crc >>> (w - 8)).setWidth 8 ^^^ b.toBitVec := by
      rw [BitVec.setWidth_xor, setWidth_byte hw]
    have hentry := entry_class h ((crc >>> (w - 8)).setWidth 8 ^^^ b.toBitVec)
    simp only [oriented, Bool.false_eq_true, if_false] at hentry hsplit ⊢
    simp only [stepByte, Bool.false_eq_true, if_false, stepDirect]
    rw [hidx, toPoly_xor, classOf_add, hentry, hsplit, toPoly_xor, toPoly_top hw, ← classOf_add]
    congr 1
    ring
  | true =>
    have hidx : (crc ^^^ b.toBitVec.setWidth w).setWidth 8 = crc.setWidth 8 ^^^ b.toBitVec := by
      rw [BitVec.setWidth_xor, setWidth_byte hw]
    have hentry := entry_class h (crc.setWidth 8 ^^^ b.toBitVec)
    simp only [oriented, if_true] at hentry hsplit ⊢
    simp only [stepByte, if_true, stepReflected]
    rw [hidx, reverse_xor, toPoly_xor, classOf_add, hentry, hsplit, reverse_xor, toPoly_xor,
      toPoly_low_reverse hw, reverse_ushiftRight, ← classOf_add]
    congr 1
    ring

theorem messageBits_cons (b : UInt8) (s : List UInt8) :
    messageBits reflect (b :: s) = bitsOf (oriented reflect b.toBitVec) ++ messageBits reflect s :=
  List.flatMap_cons

theorem messageBits_append (t : List UInt8) :
    messageBits reflect (s ++ t) = messageBits reflect s ++ messageBits reflect t :=
  List.flatMap_append

theorem length_messageBits : (messageBits reflect s).length = 8 * s.length := by
  induction s with
  | nil => rfl
  | cons b s ih =>
    grind [messageBits_cons, length_bitsOf]

theorem ofBits_messageBits_cons (b : UInt8) (s : List UInt8) :
    ofBits (messageBits reflect (b :: s))
      = X ^ (8 * s.length) * toPoly (oriented reflect b.toBitVec)
        + ofBits (messageBits reflect s) := by
  rw [messageBits_cons, ofBits_append, length_messageBits, ofBits_bitsOf]

variable {s t : List UInt8}

theorem ofBits_messageBits_xor (h : s.length = t.length) :
    ofBits (messageBits reflect (xorBytes s t))
      = ofBits (messageBits reflect s) + ofBits (messageBits reflect t) := by
  induction s generalizing t with
  | nil =>
    obtain rfl : t = [] := List.length_eq_zero_iff.mp h.symm
    have hnil : ofBits (messageBits reflect []) = 0 := rfl
    rw [show xorBytes [] [] = [] from rfl, hnil, add_zero]
  | cons a s ih =>
    cases t with
    | nil => cases h
    | cons b t =>
      have htail : s.length = t.length := Nat.succ.inj h
      have hlength : (xorBytes s t).length = t.length := by
        rw [xorBytes, List.length_zipWith, htail, Nat.min_self]
      have hhead : (a ^^^ b).toBitVec = a.toBitVec ^^^ b.toBitVec := rfl
      rw [show xorBytes (a :: s) (b :: t) = (a ^^^ b) :: xorBytes s t from rfl,
        ofBits_messageBits_cons, ofBits_messageBits_cons, ofBits_messageBits_cons, ih htail, hlength,
        htail, hhead, oriented_xor, toPoly_xor]
      ring

theorem steps_class (hw : 8 ≤ w) (h : Tabulates polynomial reflect table) (v : BitVec w)
    (s : List UInt8) :
    classOf polynomial (toPoly (oriented reflect (s.foldl (stepByte reflect table) v)))
      = classOf polynomial (X ^ (8 * s.length) * toPoly (oriented reflect v)
          + X ^ w * ofBits (messageBits reflect s)) := by
  induction s generalizing v with
  | nil =>
    have hnil : ofBits (messageBits reflect []) = 0 := rfl
    simp [hnil]
  | cons b s ih =>
    rw [List.foldl_cons, ih, classOf_add, classOf_mul, step_class hw h, ← classOf_mul, ← classOf_add,
      ofBits_messageBits_cons, List.length_cons]
    exact congrArg _ (by ring)

theorem steps_eq (hw : 8 ≤ w) (h : Tabulates polynomial reflect table) (v : BitVec w)
    (s : List UInt8) :
    s.foldl (stepByte reflect table) v = crcRegister polynomial reflect v s := by
  have hclass := steps_class hw h v s
  have hfeed := classOf_feed polynomial (by omega) (oriented reflect v) (messageBits reflect s)
  rw [length_messageBits] at hfeed
  have hsame := classOf_injective polynomial (hclass.trans hfeed.symm)
  rw [crcRegister, ← hsame, oriented_oriented]

theorem crcRegister_eq_crcRemainder (hw : 0 < w) (v : BitVec w) (s : List UInt8) :
    crcRegister polynomial reflect v s = crcRemainder polynomial reflect v s := by
  grind [length_messageBits, crcRegister, crcRemainder, ofPoly_toPoly, toPoly_feed]

theorem crcRegister_append (t : List UInt8) : crcRegister polynomial reflect v (s ++ t)
      = crcRegister polynomial reflect (crcRegister polynomial reflect v s) t := by
  simp [crcRegister, messageBits_append, feed, oriented_oriented]

theorem crcRegister_xor (hw : 0 < w) (v : BitVec w) (h : s.length = t.length) :
    crcRegister polynomial reflect v (xorBytes s t)
      = crcRegister polynomial reflect v s ^^^ crcRegister polynomial reflect 0 t := by
  have hzero : oriented reflect (0 : BitVec w) = 0#w := by
    cases reflect with
    | false => rfl
    | true => exact reverse_zero
  have hlength : (xorBytes s t).length = s.length := by
    rw [xorBytes, List.length_zipWith, ← h, Nat.min_self]
  have hfeeds : feed polynomial (oriented reflect v) (messageBits reflect (xorBytes s t))
      = feed polynomial (oriented reflect v) (messageBits reflect s)
        ^^^ feed polynomial (oriented reflect 0) (messageBits reflect t) := by
    apply classOf_injective polynomial
    rw [toPoly_xor, classOf_add, classOf_feed _ hw, classOf_feed _ hw, classOf_feed _ hw,
      ofBits_messageBits_xor h, length_messageBits, length_messageBits, hlength, hzero, toPoly_zero,
      ← classOf_add]
    congr 1
    ring
  rw [crcRegister, hfeeds, oriented_xor]
  rfl

theorem update_eq {set : CrcParameterSet w} (hreflect : set.reflectValues = reflect)
    (htable : set.lookupTable = table) (v : BitVec w) {bytes : List UInt8} {length : ℕ}
    (hlength : length ≤ bytes.length) :
    set.update v (some bytes) length
      = pure ((bytes.take length).foldl (stepByte reflect table) v) := by
  have hread : (length : ℤ) ≤ (((some bytes).getD [] : List UInt8).length : ℤ) := by grind
  have hbytes : sourceBytes (some bytes) (length : ℤ) = bytes.take length := by
    rw [sourceBytes, Option.getD_some, Int.toNat_natCast]
  rw [CrcParameterSet.update, validateSource_some, pure_bind, Run.observe_eq_pure hread, pure_bind,
    hbytes, htable, hreflect]
  cases reflect with
  | false => rfl
  | true => rfl

theorem computesCrc_of_tabulates (hw : 8 ≤ w) (h : Tabulates polynomial reflect table)
    (initialValue finalXorValue : BitVec w) :
    ComputesCrc polynomial initialValue finalXorValue reflect
      ⟨polynomial, initialValue, finalXorValue, reflect, table⟩ := by
  have hpos : 0 < w := by omega
  have hupdate : ∀ v s, update
      ⟨polynomial, initialValue, finalXorValue, reflect, table⟩ v (some s) s.length
        = pure (crcRegister polynomial reflect v s) := by
    intro v s
    rw [update_eq rfl rfl v le_rfl, List.take_length, steps_eq hw h]
  refine ⟨hupdate, crcRegister_eq_crcRemainder hpos, ?_, ?_, ?_⟩
  · intro s
    rw [hupdate, crcRegister_eq_crcRemainder hpos, map_pure]
    rfl
  · intro v s t
    rw [hupdate, hupdate, pure_bind, hupdate, crcRegister_append]
  · grind [crcRegister_xor]

/-- **Parameter sets compute polynomial division.**  For every polynomial, initial value, final mask
and orientation, at both widths, `create` builds its table and `update` with `finalize` is the check
of the message by its definition. -/
theorem parameter_sets_divide :
    (∀ (polynomial initialValue finalXorValue : BitVec 32) (reflect : Bool), ∃ set,
      Crc32ParameterSet.create polynomial initialValue finalXorValue reflect = pure set ∧
        ComputesCrc polynomial initialValue finalXorValue reflect set) ∧
    (∀ (polynomial initialValue finalXorValue : BitVec 64) (reflect : Bool), ∃ set,
      Crc64ParameterSet.create polynomial initialValue finalXorValue reflect = pure set ∧
        ComputesCrc polynomial initialValue finalXorValue reflect set) := by
  constructor
  · intro polynomial initialValue finalXorValue reflect
    have hbit : 0x80000000#32 = BitVec.twoPow 32 (32 - 1) := by decide
    obtain ⟨table, hrun, htable⟩ :=
      generateLookupTable_eq (by decide) reverseBits32_eq polynomial reflect
    refine ⟨_, ?_, computesCrc_of_tabulates (by decide) htable initialValue finalXorValue⟩
    rw [Crc32ParameterSet.create, create, hbit, hrun, pure_bind]
  · intro polynomial initialValue finalXorValue reflect
    have hbit : 0x8000000000000000#64 = BitVec.twoPow 64 (64 - 1) := by decide
    obtain ⟨table, hrun, htable⟩ :=
      generateLookupTable_eq (by decide) reverseBits64_eq polynomial reflect
    refine ⟨_, ?_, computesCrc_of_tabulates (by decide) htable initialValue finalXorValue⟩
    rw [Crc64ParameterSet.create, create, hbit, hrun, pure_bind]

theorem crcRegister_nil (v : BitVec w) : crcRegister polynomial reflect v [] = v :=
  oriented_oriented v

theorem append_holds (hw : 8 ≤ w) {set : CrcParameterSet w}
    (h : Tabulates set.polynomial set.reflectValues set.lookupTable) (v : BitVec w)
    {source : Option (List UInt8)} {length : ℤ} (hread : Readable source length) :
    (Crc.append ⟨v, set⟩ source length).catching ⟨v, set⟩ =
      pure ⟨crcRegister set.polynomial set.reflectValues v (sourceBytes source length), set⟩ := by
  obtain ⟨e, hthrows, hnone⟩ | ⟨rfl, rfl⟩ | ⟨bytes, n, rfl, rfl, hlength⟩ := source_cases hread
  · rw [Crc.append, CrcParameterSet.update, hthrows, hnone, crcRegister_nil]
    rfl
  · have hbytes : sourceBytes none 0 = [] := rfl
    rw [hbytes, crcRegister_nil, Crc.append, CrcParameterSet.update, hbytes]
    split <;> rfl
  · rw [Crc.append, update_eq rfl rfl v hlength, pure_bind, steps_eq hw h]
    rfl

variable {create : SetMaker w}

/-- `create` keeps the values it is given and tabulates them. -/
def Keeps (create : SetMaker w) : Prop :=
  ∀ polynomial initialValue finalXorValue reflect, ∃ table,
    create polynomial initialValue finalXorValue reflect =
        pure ⟨polynomial, initialValue, finalXorValue, reflect, table⟩ ∧
      Tabulates polynomial reflect table

theorem keeps_create (hw : 8 ≤ w) {reverseBits : BitVec w → BitVec w} {lastBit : BitVec w}
    (hreverse : ∀ v, reverseBits v = v.reverse) (hbit : lastBit = BitVec.twoPow w (w - 1)) :
    Keeps (CrcParameterSet.create reverseBits lastBit) := by
  intro polynomial initialValue finalXorValue reflect
  obtain ⟨table, hrun, htable⟩ := generateLookupTable_eq hw hreverse polynomial reflect
  refine ⟨table, ?_, htable⟩
  rw [CrcParameterSet.create, hbit, hrun, pure_bind]

theorem keeps32 : Keeps Crc32ParameterSet.create :=
  keeps_create (by decide) reverseBits32_eq (by decide)

theorem keeps64 : Keeps Crc64ParameterSet.create :=
  keeps_create (by decide) reverseBits64_eq (by decide)

theorem tabulates_of_created (hcreate : Keeps create) (seed : CreatedSet create) :
    Tabulates seed.1.polynomial seed.1.reflectValues seed.1.lookupTable := by
  obtain ⟨set, hset⟩ := seed
  obtain ⟨table, hrun, htable⟩ := hcreate set.polynomial set.initialValue set.finalXorValue
    set.reflectValues
  have hsame : set.lookupTable = table :=
    congrArg lookupTable (Run.pure_inj.mp (hset.symm.trans hrun))
  exact hsame ▸ htable

def Holds (seed : CreatedSet create) (s : List UInt8) (h : Crc w) : Prop :=
  h = ⟨crcRegister seed.1.polynomial seed.1.reflectValues seed.1.initialValue s, seed.1⟩

theorem computes (hw : 8 ≤ w) (hcreate : Keeps create) :
    (crcHasher create).Computes (fun seed => crcCheck seed.1) (fun _ => True) Holds where
  create seed := by
    rw [Holds, crcRegister_nil]
    rfl
  append := by
    rintro seed s _ source length rfl hread
    refine ⟨_, append_holds hw (tabulates_of_created hcreate seed) _ hread, ?_⟩
    rw [Holds, crcRegister_append]
  clone := by
    rintro seed s _ rfl
    rfl
  reset := by
    rintro seed s _ rfl
    rw [Holds, crcRegister_nil]
    rfl
  current := by
    rintro seed s _ rfl -
    rw [crcRegister_eq_crcRemainder (by omega)]
    rfl

/-- A program whose pointers are null or point at the bytes that it says (`Proper`) is given the
checks of the bytes, whatever sets its hashers were created with and however the bytes were cut into
calls. -/
def AnswersChecks (create : SetMaker w) : Prop :=
  ∀ calls : List (HashCall (CreatedSet create)), (∀ call ∈ calls, call.Proper) →
    ∃ pool, (crcHasher create).run calls [] =
      pure (pool, (askedBy calls []).map fun x => crcCheck x.1.1 x.2)

theorem answersChecks (hw : 8 ≤ w) (hcreate : Keeps create) : AnswersChecks create := by
  intro calls hproper
  obtain ⟨pool, hrun, -⟩ :=
    Hasher.run_eq (computes hw hcreate) List.Forall₂.nil hproper fun _ _ => trivial
  exact ⟨pool, hrun⟩

/-- **Programs over `Crc32` and `Crc64`** are given the remainders of polynomial division. -/
theorem crc_of_program :
    AnswersChecks Crc32ParameterSet.create ∧ AnswersChecks Crc64ParameterSet.create :=
  ⟨answersChecks (by decide) keeps32, answersChecks (by decide) keeps64⟩

/-- The nine digits in two calls, with a null pointer and a negative length between them: the check
value of CRC-32. -/
theorem crc_of_program_refused : ∃ (seed : CreatedSet Crc32ParameterSet.create) (pool : List (Crc 32)),
    (crcHasher Crc32ParameterSet.create).run
      [.create seed, .append 0 (some "12345".toUTF8.data.toList) 5, .append 0 none 3,
        .append 0 (some [0]) (-1), .append 0 (some "6789".toUTF8.data.toList) 4, .current 0] [] =
      pure (pool, [0xCBF43926]) := by
  obtain ⟨table, hset, -⟩ := keeps32 0x04C11DB7 0xFFFFFFFF 0xFFFFFFFF true
  refine ⟨⟨⟨0x04C11DB7, 0xFFFFFFFF, 0xFFFFFFFF, true, table⟩, hset⟩, ?_⟩
  obtain ⟨pool, hrun⟩ := crc_of_program.1
    [.create ⟨⟨0x04C11DB7, 0xFFFFFFFF, 0xFFFFFFFF, true, table⟩, hset⟩,
      .append 0 (some "12345".toUTF8.data.toList) 5, .append 0 none 3, .append 0 (some [0]) (-1),
      .append 0 (some "6789".toUTF8.data.toList) 4, .current 0]
    (by
      intro call hcall
      simp only [List.mem_cons, List.not_mem_nil, or_false] at hcall
      rcases hcall with rfl | rfl | rfl | rfl | rfl | rfl
      · trivial
      · rintro bytes ⟨⟩
        decide
      · rintro bytes ⟨⟩
      · rintro bytes ⟨⟩
        decide
      · rintro bytes ⟨⟩
        decide
      · trivial)
  have hvalue : crcRegister (w := 32) 0x04C11DB7 true 0xFFFFFFFF "123456789".toUTF8.data.toList ^^^
      0xFFFFFFFF = 0xCBF43926 := by decide +kernel
  rw [crcRegister_eq_crcRemainder (by decide)] at hvalue
  exact ⟨pool, hvalue ▸ hrun⟩

end SharpRuntime.Analysis.CrcUpdate
