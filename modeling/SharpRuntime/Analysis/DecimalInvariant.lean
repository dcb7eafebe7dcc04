import SharpRuntime.Analysis.DecimalCompare
import SharpRuntime.Analysis.DecimalRemainder

/-!
# The representation invariant of `Decimal`

Every operation on valid operands returns a valid value or throws, and no machine operation on the
way leaves its type (`Run.Ensures`), but for the two wraps of `-(u128)v`, which cancel.
`Expression` is a finite composition of the operations: `eval_ensures` is the invariant with an
exact conversion, and `eval_outcome_eq` says that the source's conversion has the same outcome.
-/

set_option autoImplicit false

namespace SharpRuntime.Analysis.DecimalInvariant

open Machine Model Model.Decimal
open DecimalShortening DecimalAddition
open DecimalMultiplication DecimalDivision
open DecimalRemainder DecimalCompare

variable {x y : Decimal}

theorem add_ensures_of_le (hx : x.Valid) (hy : y.Valid) (hle : x.scale ≤ y.scale) :
    (x.add y).Ensures Valid := by
  by_cases hsign : x.negative = y.negative
  · rw [add_same hx hy hle hsign]
    cases hsh : shorten maxMantissa 28 y.scale (sumMantissa x y) with
    | none => exact .throwing _
    | some p =>
      obtain ⟨hm, hs, -⟩ := shorten_some hsh
      apply Run.Ensures.pure
      constructor
      · rw [unsignZero_mantissa]
        exact hm
      · rw [unsignZero_scale]
        exact hs
  · obtain ⟨r, hrun, hvalid, -⟩ := add_opposite hx hy hle hsign
    exact Or.inl ⟨r, hrun, hvalid⟩

theorem add_ensures (hx : x.Valid) (hy : y.Valid) : (x.add y).Ensures Valid := by
  grind [add_swap, add_ensures_of_le]

theorem sub_ensures (hx : x.Valid) (hy : y.Valid) : (x.sub y).Ensures Valid := by
  unfold sub
  split
  · exact .pure hx
  · exact add_ensures hx ⟨hy.mantissa_le, hy.scale_le⟩

theorem mul_ensures (hx : x.Valid) (hy : y.Valid) : (x.mul y).Ensures Valid := by
  by_cases h0 : x.mantissa = 0 ∨ y.mantissa = 0
  · unfold mul
    rw [if_pos h0]
    exact .pure (by decide)
  · rw [not_or] at h0
    rw [mul_eq hx hy h0.1 h0.2]
    cases hsh : shorten maxMantissa 28 (x.scale + y.scale) (x.mantissa * y.mantissa) with
    | none => exact .throwing _
    | some p =>
      obtain ⟨hm, hs, -⟩ := shorten_some hsh
      exact .pure ⟨hm, hs⟩

theorem div_ensures (hx : x.Valid) (hy : y.Valid) : (x.div y).Ensures Valid := by
  by_cases hy0 : y.mantissa = 0
  · unfold div
    rw [if_pos hy0]
    exact .throwing _
  by_cases hx0 : x.mantissa = 0
  · unfold div
    rw [if_neg hy0, if_pos hx0]
    exact .pure (by decide)
  have hq : nearestDiv (dividend x y) y.mantissa ≤ maxMantissa :=
    (nearestDiv_le _ (Nat.pos_of_ne_zero hy0)).trans (dividend_le hx)
  by_cases hle : y.scale ≤ x.scale + dividendRoom x y
  · have hroom : dividendRoom x y ≤ 28 + y.scale - x.scale := (headroom_spec _ _ _).1
    have hsx := hx.scale_le
    rw [div_eq_of_le hx hy hx0 hy0 hle]
    exact .pure ⟨hq, by dsimp only; omega⟩
  · rw [div_eq_of_lt hx hy hx0 hy0 (by omega)]
    exact .pure ⟨(Nat.div_le_self _ _).trans hq, Nat.zero_le _⟩

theorem truncate_ensures (hx : x.Valid) : x.truncate.Ensures Valid := by
  obtain ⟨n, hrun, -⟩ := truncate_eq x
  rw [hrun]
  exact .pure ⟨(Nat.div_le_self _ _).trans hx.mantissa_le, Nat.zero_le _⟩

theorem mod_ensures (hx : x.Valid) (hy : y.Valid) : (x.mod y).Ensures Valid := by
  refine (div_ensures hx hy).bind fun q hq => ?_
  refine (truncate_ensures hq).bind fun t ht => ?_
  refine (mul_ensures ht hy).bind fun p hp => ?_
  exact sub_ensures hx hp

theorem neg_valid (hx : x.Valid) : x.neg.Valid := by
  unfold neg
  split
  · exact hx
  · exact ⟨hx.mantissa_le, hx.scale_le⟩

theorem one_ensures : one.Ensures Valid := Or.inl ⟨⟨1, 0, false⟩, by decide, by decide⟩

theorem increment_ensures (hx : x.Valid) : x.increment.Ensures Valid :=
  one_ensures.bind fun _ ho => add_ensures hx ho

theorem decrement_ensures (hx : x.Valid) : x.decrement.Ensures Valid :=
  one_ensures.bind fun _ ho => sub_ensures hx ho

theorem ne_ensures (hx : x.Valid) (hy : y.Valid) : (x.ne y).Ensures fun _ => True := by
  obtain ⟨b, hrun, -⟩ := eq_spec hx hy
  unfold ne
  rw [hrun, pure_bind]
  exact .pure trivial

theorem floor_ensures (hx : x.Valid) : x.floor.Ensures Valid := by
  refine (truncate_ensures hx).bind fun t ht => ?_
  split
  · refine (ne_ensures hx ht).bind fun differs _ => ?_
    split
    · exact decrement_ensures ht
    · exact .pure ht
  · exact .pure ht

theorem ceiling_ensures (hx : x.Valid) : x.ceiling.Ensures Valid := by
  refine (truncate_ensures hx).bind fun t ht => ?_
  split
  · refine (ne_ensures hx ht).bind fun differs _ => ?_
    split
    · exact increment_ensures ht
    · exact .pure ht
  · exact .pure ht

theorem powerOfTen_eq {n : ℕ} (hn : n ≤ 28) : powerOfTen n = pure (10 ^ n) := by
  induction n with
  | zero => rfl
  | succ n ih =>
    have hpow : 10 ^ n * 10 ≤ 10 ^ 28 := by
      rw [← pow_succ]
      exact Nat.pow_le_pow_right (by decide) hn
    rw [powerOfTen, ih (by omega), pure_bind, pow_succ]
    exact Run.word_of_eq (10 ^ n * 10) (by push_cast; rfl) (by omega)

theorem round_ensures (hx : x.Valid) (decimals mode : Int32) :
    (x.round decimals mode).Ensures Valid := by
  have hmax := maxMantissa_lt
  have hm := hx.mantissa_le
  have hs := hx.scale_le
  unfold Decimal.round
  split
  · exact .throwing _
  rename_i hrange
  have hdec : decimals.toInt.toNat ≤ 28 := by
    rw [not_or, Int32.lt_iff_toInt_lt, Int32.lt_iff_toInt_lt] at hrange
    have : (28 : Int32).toInt = 28 := by decide
    omega
  cases MidpointRounding.ofInt mode.toInt with
  | none => exact .throwing _
  | some convention =>
    dsimp only
    split
    · exact .pure hx
    rename_i hgap
    -- at least one digit goes, so the quotient has room for the carry
    have hten : 10 ≤ 10 ^ (x.scale - decimals.toInt.toNat) := Nat.le_self_pow (by omega) 10
    have hquot : x.mantissa / 10 ^ (x.scale - decimals.toInt.toNat) ≤ x.mantissa / 10 :=
      Nat.div_le_div_left hten (by decide)
    rw [powerOfTen_eq (by omega), pure_bind]
    unfold bumpIf
    split
    · rw [Run.word_of_eq (x.mantissa / 10 ^ (x.scale - decimals.toInt.toNat) + 1)
        (by push_cast; rfl) (by omega), pure_bind]
      exact .pure ⟨by dsimp only; simp only [maxMantissa] at *; omega, hdec⟩
    · exact .pure ⟨(Nat.div_le_self _ _).trans hm, hdec⟩

def ScanValid (s : Scan) : Prop := s.mantissa ≤ maxMantissa ∧ s.scale ≤ 28

def ScanOk : Except ParseStatus Scan → Prop
  | .error _ => True
  | .ok s => ScanValid s

variable {s : Scan}

theorem scanDigit_ensures (hs : ScanValid s) {d : ℕ} (hd : d < 10) :
    (scanDigit s d).Ensures ScanOk := by
  obtain ⟨hm, hscale⟩ := hs
  have hmax := maxMantissa_lt
  unfold scanDigit
  split
  · apply Run.Ensures.pure
    cases s.roundDigit with
    | none => exact ⟨hm, hscale⟩
    | some r => exact ⟨hm, hscale⟩
  rename_i hfull
  -- the scale grows only below 28
  have hnext : ∃ k, (if s.seenDot then (s.scale : ℤ) + 1 else s.scale) = (k : ℕ) ∧ k ≤ 28 := by
    cases hdot : s.seenDot with
    | false => exact ⟨s.scale, rfl, hscale⟩
    | true =>
      rw [hdot, Bool.true_and, decide_eq_true_eq] at hfull
      exact ⟨s.scale + 1, by push_cast; rfl, by omega⟩
  obtain ⟨k, hk, hk28⟩ := hnext
  rw [Run.word_of_eq k hk (by omega), pure_bind]
  split
  · exact .pure trivial
  rename_i hroom
  rw [not_lt, le_div_ten_iff] at hroom
  rw [Run.word_of_eq (s.mantissa * 10) (by push_cast; rfl) (by omega), pure_bind,
    Run.word_add (by omega), pure_bind]
  split
  · exact .pure trivial
  · rename_i hfit
    exact .pure ⟨by dsimp only; omega, hk28⟩

theorem digit_lt_ten {c : Char} (h : c ≤ '9') : c.toNat - '0'.toNat < 10 := by
  have hle : c.toNat ≤ '9'.toNat := h
  have h9 : '9'.toNat = 57 := rfl
  have h0 : '0'.toNat = 48 := rfl
  omega

theorem scanChar_ensures (hs : ScanValid s) (c : Char) : (scanChar s c).Ensures ScanOk := by
  unfold scanChar
  split
  · apply Run.Ensures.pure
    split
    · trivial
    · exact hs
  split
  · apply Run.Ensures.pure
    split
    · trivial
    · exact hs
  split
  · rename_i hdigit
    exact scanDigit_ensures hs (digit_lt_ten hdigit.2)
  · exact .pure trivial

theorem scanLoop_ensures (hs : ScanValid s) (cs : List Char) : (scanLoop s cs).Ensures ScanOk := by
  induction cs generalizing s with
  | nil => exact .pure hs
  | cons c cs ih =>
    refine (scanChar_ensures hs c).bind fun next hnext => ?_
    cases next with
    | error e => exact .pure trivial
    | ok s' => exact ih hnext

theorem finishScan_ensures (hs : ScanValid s) (neg : Bool) : (finishScan s neg).Ensures Valid := by
  obtain ⟨hm, hscale⟩ := hs
  have hmax := maxMantissa_lt
  unfold finishScan
  split
  · rw [Run.word_of_eq (s.mantissa + 1) (by push_cast; rfl) (by omega), pure_bind]
    split
    · rw [Run.word_of_eq (s.mantissa + 1 + 5) (by push_cast; rfl) (by omega), pure_bind]
      refine .pure ⟨?_, ?_⟩
      · dsimp only
        omega
      · dsimp only
        split <;> omega
    · rename_i hfit
      exact .pure ⟨by dsimp only; omega, hscale⟩
  · exact .pure ⟨hm, hscale⟩

variable {result : Decimal}

theorem tryParseCore_ensures (s : List Char) (h : result.Valid) :
    (tryParseCore s result).Ensures fun p => p.2.Valid := by
  unfold tryParseCore
  split
  · exact .pure h
  have hstart : ScanValid {} := ⟨Nat.zero_le _, Nat.zero_le _⟩
  refine (scanLoop_ensures hstart _).bind fun scan hscan => ?_
  cases scan with
  | error e => exact .pure h
  | ok scan =>
    dsimp only
    split
    · exact .pure h
    · refine (finishScan_ensures hscan _).bind fun d hd => ?_
      exact .pure hd

theorem tryParse_ensures (s : List Char) (h : result.Valid) :
    (tryParse s result).Ensures fun p => p.2.Valid := by
  refine (tryParseCore_ensures s h).bind fun p hp => ?_
  exact .pure hp

theorem parse_ensures (s : List Char) : (parse s).Ensures Valid := by
  refine (tryParseCore_ensures s (by decide : ({} : Decimal).Valid)).bind fun p hp => ?_
  obtain ⟨status, r⟩ := p
  cases status with
  | ok => exact .pure hp
  | malformed => exact .throwing _
  | overflow => exact .throwing _

theorem ofParts_ensures (lo mid hi : Int32) (isNegative : Bool) (scale : UInt8) :
    (ofParts lo mid hi isNegative scale).Ensures Valid := by
  have hlo := wrap_lt 32 lo.toInt
  have hmid := wrap_lt 32 mid.toInt
  have hhi := wrap_lt 32 hi.toInt
  unfold ofParts
  split
  · exact .throwing _
  rename_i hscale
  rw [Run.word_of_eq (wrap 32 hi.toInt * 2 ^ 64) (by push_cast; rfl) (by omega), pure_bind,
    Run.word_of_eq (wrap 32 mid.toInt * 2 ^ 32) (by push_cast; rfl) (by omega), pure_bind]
  refine .pure ⟨?_, by dsimp only; omega⟩
  have hor : wrap 32 hi.toInt * 2 ^ 64 ||| wrap 32 mid.toInt * 2 ^ 32 ||| wrap 32 lo.toInt <
      2 ^ 96 :=
    Nat.or_lt_two_pow (Nat.or_lt_two_pow (by omega) (by omega)) (by omega)
  simp only [maxMantissa]
  omega

/-- The conversion of the signed constructors, with the magnitude of a negative argument taken
exactly. -/
def exactSigned (v : ℤ) : Run Exception Decimal :=
  if v < 0 then pure ⟨v.natAbs, 0, true⟩ else ofSigned v

variable {v : ℤ}

theorem exactSigned_ensures (hv : v.natAbs ≤ maxMantissa) : (exactSigned v).Ensures Valid := by
  have hmax := maxMantissa_lt
  unfold exactSigned
  split
  · exact .pure ⟨hv, Nat.zero_le _⟩
  · rename_i hneg
    unfold ofSigned magnitudeOf
    rw [if_neg hneg, Run.word_of_eq v.natAbs (by omega) (by omega), pure_bind]
    exact .pure ⟨hv, Nat.zero_le _⟩

theorem ofSigned_outcome (hv : v.natAbs ≤ maxMantissa) :
    (ofSigned v).outcome = (exactSigned v).outcome := by
  have hmax := maxMantissa_lt
  unfold exactSigned
  split
  · rename_i hneg
    have hcast : wrap 128 v = 2 ^ 128 - v.natAbs := by grind [wrap]
    have hmagnitude : wrap 128 (-((2 ^ 128 - v.natAbs : ℕ) : ℤ)) = v.natAbs := by grind [wrap]
    unfold ofSigned magnitudeOf
    rw [if_pos hneg, decide_eq_true hneg]
    change Outcome.returned (⟨wrap 128 (-(wrap 128 v : ℤ)), 0, true⟩ : Decimal) = _
    rw [hcast, hmagnitude]
    rfl
  · rfl

theorem natAbs_intcs (v : Int32) : v.toInt.natAbs ≤ maxMantissa := by
  have hlo := Int32.le_toInt v
  have hhi := Int32.toInt_lt v
  simp only [maxMantissa]
  omega

theorem natAbs_longLong (v : Int64) : v.toInt.natAbs ≤ maxMantissa := by
  have hlo := Int64.le_toInt v
  have hhi := Int64.toInt_lt v
  simp only [maxMantissa]
  omega

/-- A finite composition of the operations, over operands that satisfy the invariant. -/
inductive Expression where
  | operand (d : {d : Decimal // d.Valid})
  | ofIntcs (v : Int32)
  | ofLongLong (v : Int64)
  | ofUintcs (v : UInt32)
  | ofUlongcs (v : UInt64)
  | ofParts (lo mid hi : Int32) (isNegative : Bool) (scale : UInt8)
  | parse (s : List Char)
  | tryParse (s : List Char) (result : Expression)
  | add (x o : Expression)
  | sub (x o : Expression)
  | mul (x o : Expression)
  | div (x o : Expression)
  | mod (x o : Expression)
  | neg (x : Expression)
  | increment (x : Expression)
  | decrement (x : Expression)
  | abs (d : Expression)
  | truncate (d : Expression)
  | floor (d : Expression)
  | ceiling (d : Expression)
  | round (d : Expression) (decimals mode : Int32)
  | copySign (value sign : Expression)

/-- Run an expression, with `signed` for the conversion of the signed constructors. -/
def Expression.eval (signed : ℤ → Run Exception Decimal) : Expression → Run Exception Decimal
  | .operand d => pure d.1
  | .ofIntcs v => signed v.toInt
  | .ofLongLong v => signed v.toInt
  | .ofUintcs v => pure (Decimal.ofUintcs v)
  | .ofUlongcs v => pure (Decimal.ofUlongcs v)
  | .ofParts lo mid hi isNegative scale => Decimal.ofParts lo mid hi isNegative scale
  | .parse s => Decimal.parse s
  | .tryParse s result => do
    let result ← result.eval signed
    let p ← Decimal.tryParse s result
    pure p.2
  | .add x o => do let x ← x.eval signed; let o ← o.eval signed; x.add o
  | .sub x o => do let x ← x.eval signed; let o ← o.eval signed; x.sub o
  | .mul x o => do let x ← x.eval signed; let o ← o.eval signed; x.mul o
  | .div x o => do let x ← x.eval signed; let o ← o.eval signed; x.div o
  | .mod x o => do let x ← x.eval signed; let o ← o.eval signed; x.mod o
  | .neg x => do let x ← x.eval signed; pure x.neg
  | .increment x => do let x ← x.eval signed; x.increment
  | .decrement x => do let x ← x.eval signed; x.decrement
  | .abs d => do let d ← d.eval signed; pure d.abs
  | .truncate d => do let d ← d.eval signed; d.truncate
  | .floor d => do let d ← d.eval signed; d.floor
  | .ceiling d => do let d ← d.eval signed; d.ceiling
  | .round d decimals mode => do let d ← d.eval signed; d.round decimals mode
  | .copySign value sign => do
    let value ← value.eval signed
    let sign ← sign.eval signed
    pure (value.copySign sign)

/-- Every expression gives a valid value, or throws. -/
theorem eval_ensures (e : Expression) : (e.eval exactSigned).Ensures Valid := by
  induction e with
  | operand d => exact .pure d.2
  | ofIntcs v => exact exactSigned_ensures (natAbs_intcs v)
  | ofLongLong v => exact exactSigned_ensures (natAbs_longLong v)
  | ofUintcs v =>
    have hlt := v.toNat_lt
    exact .pure ⟨by simp only [Decimal.ofUintcs, maxMantissa]; omega, Nat.zero_le _⟩
  | ofUlongcs v =>
    have hlt := v.toNat_lt
    exact .pure ⟨by simp only [Decimal.ofUlongcs, maxMantissa]; omega, Nat.zero_le _⟩
  | ofParts lo mid hi isNegative scale => exact ofParts_ensures lo mid hi isNegative scale
  | parse s => exact parse_ensures s
  | tryParse s result ih =>
    refine ih.bind fun r hr => (tryParse_ensures s hr).bind fun p hp => ?_
    exact .pure hp
  | add x o ihx iho => exact ihx.bind fun a ha => iho.bind fun b hb => add_ensures ha hb
  | sub x o ihx iho => exact ihx.bind fun a ha => iho.bind fun b hb => sub_ensures ha hb
  | mul x o ihx iho => exact ihx.bind fun a ha => iho.bind fun b hb => mul_ensures ha hb
  | div x o ihx iho => exact ihx.bind fun a ha => iho.bind fun b hb => div_ensures ha hb
  | mod x o ihx iho => exact ihx.bind fun a ha => iho.bind fun b hb => mod_ensures ha hb
  | neg x ih => exact ih.bind fun a ha => .pure (neg_valid ha)
  | increment x ih => exact ih.bind fun a ha => increment_ensures ha
  | decrement x ih => exact ih.bind fun a ha => decrement_ensures ha
  | abs d ih => exact ih.bind fun a ha => .pure ⟨ha.mantissa_le, ha.scale_le⟩
  | truncate d ih => exact ih.bind fun a ha => truncate_ensures ha
  | floor d ih => exact ih.bind fun a ha => floor_ensures ha
  | ceiling d ih => exact ih.bind fun a ha => ceiling_ensures ha
  | round d decimals mode ih => exact ih.bind fun a ha => round_ensures ha decimals mode
  | copySign value sign ihv ihs =>
    exact ihv.bind fun a ha => ihs.bind fun b _ => .pure ⟨ha.mantissa_le, ha.scale_le⟩

/-- The wrap of the smallest integer changes no result. -/
theorem eval_outcome_eq (e : Expression) :
    (e.eval ofSigned).outcome = (e.eval exactSigned).outcome := by
  induction e with
  | operand d => rfl
  | ofIntcs v => exact ofSigned_outcome (natAbs_intcs v)
  | ofLongLong v => exact ofSigned_outcome (natAbs_longLong v)
  | ofUintcs v => rfl
  | ofUlongcs v => rfl
  | ofParts lo mid hi isNegative scale => rfl
  | parse s => rfl
  | tryParse s result ih => exact Run.outcome_bind_congr ih fun _ => rfl
  | add x o ihx iho | sub x o ihx iho | mul x o ihx iho | div x o ihx iho | mod x o ihx iho
  | copySign x o ihx iho =>
    exact Run.outcome_bind_congr ihx fun _ => Run.outcome_bind_congr iho fun _ => rfl
  | neg x ih | increment x ih | decrement x ih | abs x ih | truncate x ih | floor x ih
  | ceiling x ih | round x decimals mode ih => exact Run.outcome_bind_congr ih fun _ => rfl

/-- **The invariant.**  A composition of the operations returns a valid value or throws, so
every loop ends; and but for the conversion of negative arguments no machine operation on the
way leaves the range of its type. -/
theorem invariant_holds (e : Expression) :
    ((∃ r, (e.eval ofSigned).outcome = .returned r ∧ r.Valid) ∨
      ∃ ex, (e.eval ofSigned).outcome = .threw ex) ∧
    (e.eval exactSigned).clean = true ∧
    (e.eval exactSigned).outcome = (e.eval ofSigned).outcome := by
  have h := eval_ensures e
  rw [eval_outcome_eq]
  exact ⟨h.outcome, h.clean, rfl⟩

/-- The conversion of minus one wraps. -/
theorem invariant_wraps : ¬ ∀ e : Expression, (e.eval ofSigned).clean = true := by
  intro h
  exact absurd (h (.ofIntcs (-1))) (by decide)

end SharpRuntime.Analysis.DecimalInvariant
