import SharpRuntime.Model.Exception

/-!
# `System::Decimal`

The arithmetic, comparisons, rounding functions and parser of `modules/core/src/System/Decimal.cpp`
and `modules/core/include/System/Decimal.hpp`, under the source's names.  Every operation on the
`unsigned __int128` mantissas and the `uint8_t` scales is recorded by `Run.word`; the `uint64_t`
limbs of a `uint192` are cut by `wrap`.  A loop has as many iterations as it has digits to move.
The floating-point constructors and conversions are not modelled.
-/

set_option autoImplicit false

namespace SharpRuntime.Model

open Machine

def maxMantissa : ℕ := 2 ^ 96 - 1

/-- The fields of a `Decimal`; the members default to zero. -/
structure Decimal where
  mantissa : ℕ := 0
  scale : ℕ := 0
  negative : Bool := false
deriving DecidableEq

/-- A mantissa and a scale, as `alignScales` takes them. -/
structure Scaled where
  mantissa : ℕ
  scale : ℕ
deriving DecidableEq

/-- The three limbs of a 192-bit product. -/
structure UInt192 where
  lo : ℕ
  mid : ℕ
  hi : ℕ
deriving DecidableEq

/-- The rounding conventions of `Round`; the source's enumeration can hold any `int`. -/
inductive MidpointRounding where
  | toEven
  | awayFromZero
  | toZero
  | toNegativeInfinity
  | toPositiveInfinity
deriving DecidableEq

/-- The convention with the given underlying value, if there is one. -/
def MidpointRounding.ofInt : ℤ → Option MidpointRounding
  | 0 => some .toEven
  | 1 => some .awayFromZero
  | 2 => some .toZero
  | 3 => some .toNegativeInfinity
  | 4 => some .toPositiveInfinity
  | _ => none

namespace Decimal

/-- `rem = m % 10; m /= 10; if (rem >= 5) ++m;`. -/
def roundTenth (m : ℕ) : Run Exception ℕ :=
  if 5 ≤ m % 10 then Run.word 128 ((m / 10 : ℕ) + 1) else pure (m / 10)

/-- The body of a loop of `alignScales`: scale the coarser operand up while it has room,
otherwise round the finer one. -/
def alignStep (p : Scaled × Scaled) : Run Exception (Scaled × Scaled) :=
  if p.1.mantissa ≤ maxMantissa / 10 then do
    let m ← Run.word 128 (p.1.mantissa * 10)
    let s ← Run.word 8 (p.1.scale + 1)
    pure (⟨m, s⟩, p.2)
  else do
    let m ← roundTenth p.2.mantissa
    let s ← Run.word 8 ((p.2.scale : ℤ) - 1)
    pure (p.1, ⟨m, s⟩)

/-- One of the two loops of `alignScales`, `while (s1 < s2)`. -/
def alignLoop (a b : Scaled) : Run Exception (Scaled × Scaled) :=
  Run.whileLoop (fun p => decide (p.1.scale < p.2.scale)) alignStep (b.scale - a.scale) (a, b)

def alignScales (a b : Scaled) : Run Exception (Scaled × Scaled) := do
  let (a, b) ← alignLoop a b
  let (b, a) ← alignLoop b a
  pure (a, b)

/-- The body of `fitMantissa`. -/
def fitStep (r : Decimal) : Run Exception Decimal := do
  let m ← roundTenth r.mantissa
  if r.scale = 0 then Run.throwing (.overflow "Decimal overflow.")
  else do
    let s ← Run.word 8 ((r.scale : ℤ) - 1)
    pure ⟨m, s, r.negative⟩

def fitMantissa (r : Decimal) : Run Exception Decimal :=
  Run.whileLoop (fun r => decide (maxMantissa < r.mantissa)) fitStep (r.scale + 1) r

/-- `v < 0 ? -(u128)v : u128(v)`: the cast and the negation are modular. -/
def magnitudeOf (v : ℤ) : Run Exception ℕ :=
  if v < 0 then do
    let u ← Run.word 128 v
    Run.word 128 (-(u : ℤ))
  else Run.word 128 v

/-- The shared body of the signed constructors. -/
def ofSigned (v : ℤ) : Run Exception Decimal := do
  let m ← magnitudeOf v
  pure ⟨m, 0, decide (v < 0)⟩

/-- `Decimal(intcs)`. -/
def ofIntcs (v : Int32) : Run Exception Decimal := ofSigned v.toInt

/-- `Decimal(long long)`; `Decimal(long)` has the same body. -/
def ofLongLong (v : Int64) : Run Exception Decimal := ofSigned v.toInt

/-- `Decimal(uintcs)`. -/
def ofUintcs (v : UInt32) : Decimal := ⟨v.toNat, 0, false⟩

/-- `Decimal(ulongcs)`. -/
def ofUlongcs (v : UInt64) : Decimal := ⟨v.toNat, 0, false⟩

/-- `Decimal(intcs lo, intcs mid, intcs hi, bool isNegative, bytecs scale)`. -/
def ofParts (lo mid hi : Int32) (isNegative : Bool) (scale : UInt8) : Run Exception Decimal :=
  if 28 < scale.toNat then
    Run.throwing (.argumentOutOfRange "scale" "Decimal scale must be in range 0-28.")
  else do
    let h ← Run.word 128 (wrap 32 hi.toInt * 2 ^ 64)
    let m ← Run.word 128 (wrap 32 mid.toInt * 2 ^ 32)
    pure ⟨h ||| m ||| wrap 32 lo.toInt, scale.toNat, isNegative⟩

/-- `operator+` on aligned mantissas, up to the sign of a zero. -/
def addAligned (x o : Decimal) (a b : Scaled) : Run Exception Decimal :=
  if x.negative = o.negative then do
    let m ← Run.word 128 (a.mantissa + b.mantissa)
    fitMantissa ⟨m, a.scale, x.negative⟩
  else if b.mantissa ≤ a.mantissa then do
    let m ← Run.word 128 ((a.mantissa : ℤ) - b.mantissa)
    pure ⟨m, a.scale, x.negative⟩
  else do
    let m ← Run.word 128 ((b.mantissa : ℤ) - a.mantissa)
    pure ⟨m, a.scale, o.negative⟩

/-- `operator+`. -/
def add (x o : Decimal) : Run Exception Decimal := do
  let (a, b) ← alignScales ⟨x.mantissa, x.scale⟩ ⟨o.mantissa, o.scale⟩
  let r ← addAligned x o a b
  pure (if r.mantissa = 0 then ⟨r.mantissa, r.scale, false⟩ else r)

/-- Binary `operator-`. -/
def sub (x o : Decimal) : Run Exception Decimal :=
  if o.mantissa = 0 then pure x else x.add ⟨o.mantissa, o.scale, !o.negative⟩

def mul96x96 (a b : ℕ) : Run Exception UInt192 := do
  let a0 := wrap 64 a
  let a1 := wrap 64 (a >>> 64 : ℕ)
  let b0 := wrap 64 b
  let b1 := wrap 64 (b >>> 64 : ℕ)
  let p00 ← Run.word 128 (a0 * b0)
  let p01 ← Run.word 128 (a0 * b1)
  let p10 ← Run.word 128 (a1 * b0)
  let p11 ← Run.word 128 (a1 * b1)
  let s1 ← Run.word 128 ((p00 >>> 64 : ℕ) + p01)
  let c1 ← Run.word 128 (s1 + p10)
  let c2 ← Run.word 128 ((c1 >>> 64 : ℕ) + p11)
  pure ⟨wrap 64 p00, wrap 64 c1, wrap 64 c2⟩

/-- `div192by10`: the quotient limbs and the remainder. -/
def div192by10 (v : UInt192) : Run Exception (UInt192 × ℕ) := do
  let hi := wrap 64 (v.hi / 10 : ℕ)
  let s1 ← Run.word 128 ((v.hi % 10 : ℕ) * 2 ^ 64)
  let r1 := s1 ||| v.mid
  let mid := wrap 64 (r1 / 10 : ℕ)
  let s2 ← Run.word 128 ((r1 % 10 : ℕ) * 2 ^ 64)
  let r2 := s2 ||| v.lo
  pure (⟨wrap 64 (r2 / 10 : ℕ), mid, hi⟩, r2 % 10)

/-- `if (++v.lo == 0) if (++v.mid == 0) ++v.hi;`. -/
def increment192 (v : UInt192) : UInt192 :=
  let lo := wrap 64 (v.lo + 1)
  if lo = 0 then
    let mid := wrap 64 (v.mid + 1)
    if mid = 0 then ⟨lo, mid, wrap 64 (v.hi + 1)⟩ else ⟨lo, mid, v.hi⟩
  else ⟨lo, v.mid, v.hi⟩

def fits96 (v : UInt192) : Bool := decide (v.hi = 0) && decide (v.mid >>> 32 = 0)

def to128 (v : UInt192) : Run Exception ℕ := do
  let h ← Run.word 128 (v.mid * 2 ^ 64)
  pure (h ||| v.lo)

/-- The body of the loop of `operator*`. -/
def mulStep (p : UInt192 × ℕ) : Run Exception (UInt192 × ℕ) :=
  if p.2 = 0 then Run.throwing (.overflow "Decimal overflow.")
  else do
    let (prod, rem) ← div192by10 p.1
    pure (if 5 ≤ rem then increment192 prod else prod, p.2 - 1)

/-- `operator*`. -/
def mul (x o : Decimal) : Run Exception Decimal :=
  if x.mantissa = 0 ∨ o.mantissa = 0 then pure {}
  else do
    let prod ← mul96x96 x.mantissa o.mantissa
    let (prod, scale) ← Run.whileLoop (fun p => !fits96 p.1 || decide (28 < p.2)) mulStep
      (x.scale + o.scale + 1) (prod, x.scale + o.scale)
    let m ← to128 prod
    pure ⟨m, wrap 8 scale, x.negative != o.negative⟩

/-- The body of the scaling loop of `operator/`. -/
def scaleUpStep (p : ℕ × ℤ) : Run Exception (ℕ × ℤ) := do
  let dividend ← Run.word 128 (p.1 * 10)
  pure (dividend, p.2 + 1)

/-- `while (scale < 28 && dividend <= maxMantissa / 10) { dividend *= 10; ++scale; }`. -/
def scaleUp (dividend : ℕ) (scale : ℤ) : Run Exception (ℕ × ℤ) :=
  Run.whileLoop (fun p => decide (p.2 < 28) && decide (p.1 ≤ maxMantissa / 10)) scaleUpStep
    (28 - scale).toNat (dividend, scale)

/-- `q = dividend / m; rem = dividend % m; if (rem * 2 >= m) ++q;`. -/
def roundedQuotient (dividend m : ℕ) : Run Exception ℕ := do
  let twice ← Run.word 128 ((dividend % m : ℕ) * 2)
  if m ≤ twice then Run.word 128 ((dividend / m : ℕ) + 1) else pure (dividend / m)

/-- `while (scale < 0) { q /= 10; ++scale; }`. -/
def scaleDown (q : ℕ) (scale : ℤ) : Run Exception (ℕ × ℤ) :=
  Run.whileLoop (fun p => decide (p.2 < 0)) (fun p => pure (p.1 / 10, p.2 + 1))
    (-scale).toNat (q, scale)

/-- `operator/`. -/
def div (x o : Decimal) : Run Exception Decimal :=
  if o.mantissa = 0 then Run.throwing (.divideByZero "Attempted to divide by zero.")
  else if x.mantissa = 0 then pure {}
  else do
    let (dividend, scale) ← scaleUp x.mantissa ((x.scale : ℤ) - o.scale)
    let q ← roundedQuotient dividend o.mantissa
    let (q, scale) ← scaleDown q scale
    fitMantissa ⟨q, wrap 8 (min scale 28), x.negative != o.negative⟩

/-- `while (s > 0) { m /= 10; --s; }`. -/
def dropFraction (m s : ℕ) : Run Exception (ℕ × ℕ) :=
  Run.whileLoop (fun p => decide (0 < p.2)) (fun p => pure (p.1 / 10, p.2 - 1)) s (m, s)

/-- `Truncate`. -/
def truncate (d : Decimal) : Run Exception Decimal :=
  if d.scale = 0 then pure d
  else do
    let (m, _) ← dropFraction d.mantissa d.scale
    pure ⟨m, 0, d.negative && decide (m ≠ 0)⟩

/-- `operator%`. -/
def mod (x o : Decimal) : Run Exception Decimal := do
  let q ← x.div o
  let t ← q.truncate
  let p ← t.mul o
  x.sub p

/-- `operator==`. -/
def eq (x o : Decimal) : Run Exception Bool :=
  if x.negative ≠ o.negative then pure (decide (x.mantissa = 0) && decide (o.mantissa = 0))
  else do
    let (a, b) ← alignScales ⟨x.mantissa, x.scale⟩ ⟨o.mantissa, o.scale⟩
    pure (decide (a.mantissa = b.mantissa))

/-- `operator!=`. -/
def ne (x o : Decimal) : Run Exception Bool := do
  let b ← x.eq o
  pure !b

/-- `operator<`. -/
def lt (x o : Decimal) : Run Exception Bool :=
  if x.negative ≠ o.negative then
    pure (if x.mantissa = 0 ∧ o.mantissa = 0 then false else x.negative)
  else do
    let (a, b) ← alignScales ⟨x.mantissa, x.scale⟩ ⟨o.mantissa, o.scale⟩
    pure (if x.negative then decide (b.mantissa < a.mantissa) else decide (a.mantissa < b.mantissa))

/-- `operator<=`. -/
def le (x o : Decimal) : Run Exception Bool := do
  let b ← o.lt x
  pure !b

/-- `CompareTo`. -/
def compareTo (x other : Decimal) : Run Exception Int32 := do
  let same ← x.eq other
  if same then pure 0
  else do
    let less ← x.lt other
    pure (if less then -1 else 1)

/-- The `std::hash` specialisations `GetHashCode` uses. -/
structure StdHash where
  uint64 : UInt64 → UInt64
  uint8 : UInt8 → UInt64
  bool : Bool → UInt64

/-- `h ^= k + 0x9e3779b9 + (h << 6) + (h >> 2)`. -/
def hashCombine (h k : UInt64) : UInt64 := h ^^^ (k + (0x9e3779b9 : UInt64) + (h <<< 6) + (h >>> 2))

/-- `while (s > 0 && m % 10 == 0) { m /= 10; --s; }`. -/
def stripZeros : ℕ → ℕ → ℕ × ℕ
  | m, 0 => (m, 0)
  | m, s + 1 => if m % 10 = 0 then stripZeros (m / 10) s else (m, s + 1)

/-- `GetHashCode`. -/
def getHashCode (hash : StdHash) (x : Decimal) : Int32 :=
  let (m, s) := stripZeros x.mantissa x.scale
  let neg := x.negative && decide (m ≠ 0)
  let h := hash.uint64 (UInt64.ofNat m)
  let h := hashCombine h (hash.uint64 (UInt64.ofNat (m >>> 64)))
  let h := hashCombine h (hash.uint8 (UInt8.ofNat s))
  let h := hashCombine h (hash.bool neg)
  Int32.ofNat (h &&& 0x7fffffff).toNat

/-- Unary `operator-`. -/
def neg (x : Decimal) : Decimal :=
  if x.mantissa = 0 then x else ⟨x.mantissa, x.scale, !x.negative⟩

/-- `Abs`. -/
def abs (d : Decimal) : Decimal := ⟨d.mantissa, d.scale, false⟩

/-- `CopySign`. -/
def copySign (value sign : Decimal) : Decimal := ⟨value.mantissa, value.scale, sign.negative⟩

/-- `One`. -/
def one : Run Exception Decimal := ofIntcs 1

/-- `operator++`. -/
def increment (x : Decimal) : Run Exception Decimal := do
  let o ← one
  x.add o

/-- `operator--`. -/
def decrement (x : Decimal) : Run Exception Decimal := do
  let o ← one
  x.sub o

/-- `Floor`. -/
def floor (d : Decimal) : Run Exception Decimal := do
  let t ← d.truncate
  if d.negative then do
    let differs ← d.ne t
    if differs then t.decrement else pure t
  else pure t

/-- `Ceiling`. -/
def ceiling (d : Decimal) : Run Exception Decimal := do
  let t ← d.truncate
  if !d.negative then do
    let differs ← d.ne t
    if differs then t.increment else pure t
  else pure t

/-- `for (i < dropCount) divisor *= 10`. -/
def powerOfTen : ℕ → Run Exception ℕ
  | 0 => pure 1
  | n + 1 => do
    let d ← powerOfTen n
    Run.word 128 (d * 10)

/-- The `switch` of `Round`. -/
def roundsUp (mode : MidpointRounding) (negative : Bool)
    (quotient remainder halfDivisor : ℕ) : Bool :=
  match mode with
  | .toEven =>
    if halfDivisor < remainder then true
    else if remainder < halfDivisor then false
    else decide (quotient % 2 ≠ 0)
  | .awayFromZero => decide (halfDivisor ≤ remainder)
  | .toZero => false
  | .toNegativeInfinity => negative && decide (remainder ≠ 0)
  | .toPositiveInfinity => !negative && decide (remainder ≠ 0)

/-- `if (roundUp) ++quotient`. -/
def bumpIf (roundUp : Bool) (quotient : ℕ) : Run Exception ℕ :=
  if roundUp then Run.word 128 (quotient + 1) else pure quotient

/-- `Round(d, decimals, mode)`; a `mode` outside the enumeration is rejected. -/
def round (d : Decimal) (decimals mode : Int32) : Run Exception Decimal :=
  if decimals < 0 ∨ 28 < decimals then
    Run.throwing (.argumentOutOfRange "decimals" "decimals must be in range 0-28.")
  else
    match MidpointRounding.ofInt mode.toInt with
    | none =>
      Run.throwing (.argument ("The value '" ++ toString mode.toInt ++
        "' is not valid for this usage of the type MidpointRounding.") "mode")
    | some mode =>
      if d.scale ≤ decimals.toInt.toNat then pure d
      else do
        let divisor ← powerOfTen (d.scale - decimals.toInt.toNat)
        let quotient := d.mantissa / divisor
        let quotient ← bumpIf
          (roundsUp mode d.negative quotient (d.mantissa % divisor) (divisor / 2)) quotient
        pure ⟨quotient, decimals.toInt.toNat, d.negative && decide (quotient ≠ 0)⟩

inductive ParseStatus where
  | ok
  | malformed
  | overflow
deriving DecidableEq

/-- `std::isspace` in the "C" locale. -/
def isSpace (c : Char) : Bool := c = ' ' || (0x09 ≤ c.toNat && c.toNat ≤ 0x0D)

/-- The scanner's variables; `roundDigit` is the first digit dropped past scale 28. -/
structure Scan where
  mantissa : ℕ := 0
  scale : ℕ := 0
  seenDot : Bool := false
  seenDigit : Bool := false
  roundDigit : Option ℕ := none
  nonZeroTail : Bool := false
deriving DecidableEq

/-- One iteration of the scanning loop on a digit `d`. -/
def scanDigit (s : Scan) (d : ℕ) : Run Exception (Except ParseStatus Scan) :=
  if s.seenDot && decide (28 ≤ s.scale) then
    pure (.ok (match s.roundDigit with
      | none => { s with seenDigit := true, roundDigit := some d }
      | some _ =>
        { s with seenDigit := true, nonZeroTail := s.nonZeroTail || decide (d ≠ 0) }))
  else do
    let scale ← Run.word 8 (if s.seenDot then s.scale + 1 else s.scale)
    if maxMantissa / 10 < s.mantissa then pure (.error .overflow)
    else do
      let ten ← Run.word 128 (s.mantissa * 10)
      let mantissa ← Run.word 128 (ten + d)
      if maxMantissa < mantissa then pure (.error .overflow)
      else pure (.ok { s with mantissa := mantissa, scale := scale, seenDigit := true })

/-- One iteration of the scanning loop. -/
def scanChar (s : Scan) (c : Char) : Run Exception (Except ParseStatus Scan) :=
  if c = '.' then pure (if s.seenDot then .error .malformed else .ok { s with seenDot := true })
  else if c = ',' then pure (if !s.seenDigit || s.seenDot then .error .malformed else .ok s)
  else if '0' ≤ c ∧ c ≤ '9' then scanDigit s (c.toNat - '0'.toNat)
  else pure (.error .malformed)

/-- The scanning loop; a failure returns at once. -/
def scanLoop : Scan → List Char → Run Exception (Except ParseStatus Scan)
  | s, [] => pure (.ok s)
  | s, c :: cs => do
    match ← scanChar s c with
    | .error e => pure (.error e)
    | .ok s => scanLoop s cs

/-- Whether the dropped digits round the mantissa up: half to even. -/
def scanRoundsUp (s : Scan) : Bool :=
  match s.roundDigit with
  | none => false
  | some d =>
    if 5 < d then true
    else if d < 5 then false
    else s.nonZeroTail || decide (s.mantissa % 2 ≠ 0)

/-- The rounding after the scan, with its carry past the mantissa. -/
def finishScan (s : Scan) (neg : Bool) : Run Exception Decimal :=
  if scanRoundsUp s then do
    let m ← Run.word 128 (s.mantissa + 1)
    if maxMantissa < m then do
      let m ← Run.word 128 (m + 5)
      pure ⟨m / 10, if 0 < s.scale then s.scale - 1 else s.scale, neg⟩
    else pure ⟨m, s.scale, neg⟩
  else pure ⟨s.mantissa, s.scale, neg⟩

/-- Outer white space removed. -/
def trimSpace (s : List Char) : List Char :=
  (((s.dropWhile isSpace).reverse).dropWhile isSpace).reverse

/-- The sign, and what follows it. -/
def takeSign : List Char → Bool × List Char
  | '-' :: s => (true, s)
  | '+' :: s => (false, s)
  | s => (false, s)

/-- `tryParseCore`: the status, and the value left in `result`. -/
def tryParseCore (s : List Char) (result : Decimal) : Run Exception (ParseStatus × Decimal) :=
  if trimSpace s = [] then pure (.malformed, result)
  else do
    let (neg, body) := takeSign (trimSpace s)
    match ← scanLoop {} body with
    | .error e => pure (e, result)
    | .ok scan =>
      if !scan.seenDigit then pure (.malformed, result)
      else do
        let d ← finishScan scan neg
        pure (.ok, d)

/-- `tryParse`. -/
def tryParse (s : List Char) (result : Decimal) : Run Exception (Bool × Decimal) := do
  let (status, result) ← tryParseCore s result
  pure (decide (status = .ok), result)

/-- `parse`. -/
def parse (s : List Char) : Run Exception Decimal := do
  let (status, r) ← tryParseCore s {}
  match status with
  | .ok => pure r
  | .overflow =>
    Run.throwing (.overflow "Value was either too large or too small for a Decimal.")
  | .malformed => Run.throwing (.format "Input string was not in a correct format.")

/-- The loop of `u128str`: `while (v > 0) { s = char('0' + int(v % 10)) + s; v /= 10; }`. -/
def u128strLoop : ℕ → ℕ → List Char → List Char
  | 0, _, s => s
  | fuel + 1, v, s =>
    if 0 < v then u128strLoop fuel (v / 10) (Char.ofNat ('0'.toNat + v % 10) :: s) else s

/-- `u128str`; a `u128` has fewer than 39 digits. -/
def u128str (v : ℕ) : List Char := if v = 0 then ['0'] else u128strLoop 39 v []

/-- `while (int(m.size()) <= int(scale_)) m = "0" + m;`. -/
def padZeros (scale : ℕ) (m : List Char) : List Char :=
  List.replicate (scale + 1 - m.length) '0' ++ m

/-- `toString`. -/
def toString (d : Decimal) : List Char :=
  let sign := if d.negative && decide (d.mantissa ≠ 0) then ['-'] else []
  let m := u128str d.mantissa
  if d.scale = 0 then sign ++ m
  else
    let m := padZeros d.scale m
    let dot := m.length - d.scale
    sign ++ (m.take dot ++ '.' :: m.drop dot)

/-- `catch (const System::OverflowException&)`, which throws another one. -/
def rethrowing (x : Run Exception Int64) (message : String) : Run Exception Int64 :=
  match x.outcome with
  | .threw (.overflow _) => ⟨.threw (.overflow message), x.clean⟩
  | _ => x

/-- `ToInt64`. -/
def toInt64 (d : Decimal) : Run Exception Int64 := do
  let t ← d.truncate
  let message := "Value was either too large or too small for an Int64."
  if 2 ^ 64 - 1 < t.mantissa then Run.throwing (.overflow message)
  else if t.negative then
    if 2 ^ 63 < t.mantissa then Run.throwing (.overflow message)
    else pure (if t.mantissa = 2 ^ 63 then Int64.minValue else -Int64.ofNat t.mantissa)
  else if 2 ^ 63 - 1 < t.mantissa then Run.throwing (.overflow message)
  else pure (Int64.ofNat t.mantissa)

/-- `FromOACurrency`. -/
def fromOACurrency (cy : Int64) : Run Exception Decimal := do
  let d ← ofLongLong cy
  let unit ← ofLongLong 10000
  d.div unit

/-- `ToOACurrency`. -/
def toOACurrency (d : Decimal) : Run Exception Int64 :=
  rethrowing (do
    let rounded ← d.round 4 0
    let unit ← ofLongLong 10000
    let scaled ← rounded.mul unit
    scaled.toInt64) "Value was either too large or too small for a Currency."

end Decimal

end SharpRuntime.Model
