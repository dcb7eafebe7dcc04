import SharpRuntime.Machine.Numeral
import SharpRuntime.Machine.Printed
import SharpRuntime.Model.Exception

/-!
# `System::Numerics::BigInteger`

The sign-magnitude arithmetic of `modules/numerics/src/System/Numerics/BigInteger.cpp`, under the
source's names.  A magnitude is the vector of its base-`10^9` limbs, least significant first; a loop
over a vector is a recursion over the list, one from the last index down treats the tail first.  A
size that the source casts to `int` is cut as there (`intLimbs`).  `divmodMag` records its 64-bit
operations (`Run.word`, `Run.signed`) and the limbs it stores (`storeLimb`); the conversion to
16-bit words is a loop that ends only on a non-empty magnitude.
-/

set_option autoImplicit false

namespace SharpRuntime.Model

open Machine

/-- The weight of one limb. -/
def BigInteger.base : ℕ := 1000000000

/-- The fields of a `BigInteger`: its sign and its limbs. -/
structure BigInteger where
  negative : Bool
  mag : List ℕ
deriving DecidableEq

namespace BigInteger

/-- `trim`: drop leading zero limbs, and the sign of a zero. -/
def trim (x : BigInteger) : BigInteger :=
  let mag := popZeros x.mag
  ⟨if mag = [0] then false else x.negative, mag⟩

/-- The entries below `static_cast<int>(size())`. -/
def intLimbs (a : List ℕ) : List ℕ := a.take (toIntcs a.length).toNat

/-- The loop of `cmpMag`: the most significant difference decides. -/
def cmpMagLoop : List ℕ → List ℕ → ℤ
  | x :: a, y :: b =>
    let c := cmpMagLoop a b
    if c ≠ 0 then c else if x ≠ y then (if x < y then -1 else 1) else 0
  | _, _ => 0

/-- `cmpMag`: a longer magnitude is larger, otherwise compare limb by limb. -/
def cmpMag (a b : List ℕ) : ℤ :=
  if a.length ≠ b.length then (if a.length < b.length then -1 else 1) else
    cmpMagLoop (intLimbs a) (intLimbs b)

/-- `while (v) { push_back(v % BASE); v /= BASE; }`. -/
def pushLimbs (v : ℕ) : List ℕ :=
  if v = 0 then [] else wrap 32 (v % base : ℕ) :: pushLimbs (v / base)
termination_by v
decreasing_by exact Nat.div_lt_self (by omega) (by decide)

/-- The loop of `addMag` from a position on, with the carry into it; past the longer
operand it goes on while there is a carry. -/
def addMagLoop : List ℕ → List ℕ → ℕ → List ℕ
  | x :: a, y :: b, carry =>
    let sum := wrap 64 (wrap 64 (carry + x) + y)
    wrap 32 (sum % base : ℕ) :: addMagLoop a b (sum / base)
  | x :: a, [], carry =>
    let sum := wrap 64 (carry + x)
    wrap 32 (sum % base : ℕ) :: addMagLoop a [] (sum / base)
  | [], y :: b, carry =>
    let sum := wrap 64 (carry + y)
    wrap 32 (sum % base : ℕ) :: addMagLoop [] b (sum / base)
  | [], [], carry => pushLimbs carry

def addMag (a b : List ℕ) : List ℕ := addMagLoop a b 0

/-- The loop of `subMag`: limbs of `a` less those of `b` (zero past its end), with the
borrow into the position. -/
def subMagLoop : List ℕ → List ℕ → ℤ → List ℕ
  | [], _, _ => []
  | x :: a, b, borrow =>
    let d : ℤ := (x : ℤ) - borrow - (b.headD 0 : ℕ)
    if d < 0 then wrap 32 (d + base) :: subMagLoop a b.tail 1
    else wrap 32 d :: subMagLoop a b.tail 0

/-- `subMag`; the caller ensures that `a` is the larger. -/
def subMag (a b : List ℕ) : List ℕ := popZeros (subMagLoop a b 0)

/-- The inner loop of `mulMag` on the accumulator from position `i` on: add `x` times the
limbs of `b`, then run the carry on.  An index past the accumulator is never reached. -/
def mulMagRow (x : ℕ) : List ℕ → List ℕ → ℕ → List ℕ
  | y :: b, c :: r, carry =>
    let cur := wrap 64 (wrap 64 (c + carry) + wrap 64 (x * y))
    wrap 32 (cur % base : ℕ) :: mulMagRow x b r (cur / base)
  | [], c :: r, carry =>
    if carry ≠ 0 then
      let cur := wrap 64 (c + carry)
      wrap 32 (cur % base : ℕ) :: mulMagRow x [] r (cur / base)
    else c :: r
  | _, [], _ => []

/-- The outer loop of `mulMag`: row `i` starts at position `i` of the accumulator. -/
def mulMagLoop (b : List ℕ) : List ℕ → List ℕ → List ℕ
  | [], r => r
  | x :: a, r =>
    match mulMagRow x b r 0 with
    | [] => []
    | c :: r => c :: mulMagLoop b a r

/-- `mulMag`: schoolbook multiplication into `a.size() + b.size()` limbs. -/
def mulMag (a b : List ℕ) : List ℕ :=
  popZeros (mulMagLoop b a (List.replicate (a.length + b.length) 0))

/-- The loop of `divMagByLimb`, from the top limb down: the quotient limbs and the
running remainder. -/
def divMagByLimbLoop (b : ℕ) : List ℕ → List ℕ × ℕ
  | [] => ([], 0)
  | x :: a =>
    let (q, r) := divMagByLimbLoop b a
    let cur := wrap 64 (wrap 64 (r * base) + x)
    (wrap 32 (cur / b : ℕ) :: q, cur % b)

/-- `divMagByLimb`: the quotient and the remainder by a single limb. -/
def divMagByLimb (a : List ℕ) (b : ℕ) : List ℕ × ℕ :=
  let loop := divMagByLimbLoop b (intLimbs a)
  (popZeros (loop.1 ++ List.replicate (a.length - loop.1.length) 0), wrap 32 loop.2)

/-- Store a limb: the cast to `uint32_t`, recording whether the value was a limb. -/
def storeLimb (n : ℤ) : Run Exception ℕ := do
  Run.observe (0 ≤ n ∧ n < base)
  pure (wrap 32 n)

/-- Step D1 on one operand: multiply every limb by `d`.  The final carry is dropped. -/
def scaleLimbs (d : ℕ) : List ℕ → ℕ → Run Exception (List ℕ)
  | [], _ => pure []
  | x :: u, carry => do
    let prod ← Run.word 64 (x * d)
    let p ← Run.word 64 (prod + carry)
    let limb ← storeLimb (p % base : ℕ)
    let rest ← scaleLimbs d u (p / base)
    pure (limb :: rest)

/-- The test of step D3's refinement loop; `vn2` and `u2` are the second divisor limb and
the third dividend limb, present when the divisor has two limbs. -/
def qhatTooLarge (vn2 u2 : ℕ) (hasVn2 : Bool) (qhat rhat : ℕ) : Run Exception Bool :=
  if base ≤ qhat then pure true
  else if hasVn2 then do
    let lhs ← Run.word 64 (qhat * vn2)
    let shifted ← Run.word 64 (rhat * base)
    let rhs ← Run.word 64 (shifted + u2)
    pure (decide (rhs < lhs))
  else pure false

/-- Step D3's refinement loop.  Its test fails on `qhat = 0`, so the loop is a recursion
on `qhat`. -/
def adjustQhat (vn1 vn2 u2 : ℕ) (hasVn2 : Bool) : ℕ → ℕ → Run Exception ℕ
  | 0, rhat => do
    let _ ← qhatTooLarge vn2 u2 hasVn2 0 rhat
    pure 0
  | qhat + 1, rhat => do
    let tooLarge ← qhatTooLarge vn2 u2 hasVn2 (qhat + 1) rhat
    if tooLarge then do
      let rhat ← Run.word 64 (rhat + vn1)
      if base ≤ rhat then pure qhat else adjustQhat vn1 vn2 u2 hasVn2 qhat rhat
    else pure (qhat + 1)

/-- `prod` of step D4: `qhat * v[i] + carry`, or the carry alone past the divisor. -/
def limbProduct (qhat : ℕ) (v : List ℕ) (carry : ℕ) : Run Exception ℕ :=
  match v with
  | y :: _ => do
    let p ← Run.word 64 (qhat * y)
    Run.word 64 (p + carry)
  | [] => pure carry

/-- `if (diff < 0) { diff += BASE; borrow = 1; } else borrow = 0;`. -/
def borrowLimb (diff : ℤ) : Run Exception (ℤ × ℤ) :=
  if diff < 0 then do
    let lifted ← Run.signed 64 (diff + base)
    pure (lifted, 1)
  else pure (diff, 0)

/-- Step D4 on the window `u[j..j+n]`: subtract `qhat * v`, returning the window and the
borrow out of it. -/
def mulSubLimbs (qhat : ℕ) : List ℕ → List ℕ → ℕ → ℤ → Run Exception (List ℕ × ℤ)
  | [], _, _, borrow => pure ([], borrow)
  | x :: u, v, carry, borrow => do
    let prod ← limbProduct qhat v carry
    let lowDiff ← Run.signed 64 ((x : ℤ) - (prod % base : ℕ))
    let diff ← Run.signed 64 (lowDiff - borrow)
    let (diff, borrow) ← borrowLimb diff
    let limb ← storeLimb diff
    let (rest, borrow) ← mulSubLimbs qhat u v.tail (prod / base) borrow
    pure (limb :: rest, borrow)

/-- Step D5 on the window: add `v` back.  The final carry is dropped. -/
def addBackLimbs : List ℕ → List ℕ → ℕ → Run Exception (List ℕ)
  | [], _, _ => pure []
  | x :: u, v, c => do
    let lowSum ← Run.word 64 ((x : ℕ) + (v.headD 0 : ℕ))
    let s ← Run.word 64 (lowSum + c)
    let limb ← storeLimb (s % base : ℕ)
    let rest ← addBackLimbs u v.tail (s / base)
    pure (limb :: rest)

/-- Step D3 on the window `w = u[j..j+n]`: the estimate from the two leading limbs,
refined by the third. -/
def estimateQhat (v w : List ℕ) : Run Exception ℕ := do
  let n := v.length
  let lead ← Run.word 64 (w.getD n 0 * base)
  let top2 ← Run.word 64 (lead + w.getD (n - 1) 0)
  let vn1 := v.getD (n - 1) 0
  let vn2 := if 2 ≤ n then v.getD (n - 2) 0 else 0
  adjustQhat vn1 vn2 (w.getD (n - 2) 0) (decide (2 ≤ n)) (top2 / vn1) (top2 % vn1)

/-- Steps D3 to D5 on one window: the new window and the quotient limb. -/
def divStep (v w : List ℕ) : Run Exception (List ℕ × ℕ) := do
  let qhat ← estimateQhat v w
  let (w, borrow) ← mulSubLimbs qhat w v 0 0
  if borrow ≠ 0 then do
    let qhat ← Run.word 64 ((qhat : ℤ) - 1)
    let w ← addBackLimbs w v 0
    let limb ← storeLimb qhat
    pure (w, limb)
  else do
    let limb ← storeLimb qhat
    pure (w, limb)

/-- The main loop, for `j` below its argument from the top down: the remaining dividend
and the quotient limbs. -/
def divLoop (v : List ℕ) : ℕ → List ℕ → List ℕ → Run Exception (List ℕ × List ℕ)
  | 0, u, q => pure (u, q)
  | j + 1, u, q => do
    let n := v.length
    let (w, qj) ← divStep v ((u.drop j).take (n + 1))
    divLoop v j (u.take j ++ w ++ u.drop (j + n + 1)) (qj :: q)

/-- Step D8: divide the remainder by the normalising factor, from the top limb down. -/
def unscaleLimbs (d : ℕ) : List ℕ → Run Exception (List ℕ × ℕ)
  | [] => pure ([], 0)
  | x :: a => do
    let (rem, r) ← unscaleLimbs d a
    let shifted ← Run.word 64 (r * base)
    let cur ← Run.word 64 (shifted + x)
    let limb ← storeLimb (cur / d : ℕ)
    pure (limb :: rem, cur % d)

/-- Step D1, skipped when the factor is one. -/
def normalise (d : ℕ) (u : List ℕ) : Run Exception (List ℕ) :=
  if 1 < d then scaleLimbs d u 0 else pure u

/-- Step D8, skipped when the factor is one. -/
def denormalise (d : ℕ) (rem : List ℕ) : Run Exception (List ℕ) :=
  if 1 < d then Prod.fst <$> unscaleLimbs d rem else pure rem

/-- `divmodMag`: Knuth's Algorithm D in base `10^9`.  The index `n - 1` and the size `m + 1` are
recorded to be in range. -/
def divmodMag (u v : List ℕ) : Run Exception (List ℕ × List ℕ) := do
  let n := toIntcs v.length
  let m ← Run.signed 32 (toIntcs u.length - n)
  Run.observe (1 ≤ n ∧ 0 ≤ m)
  let n := n.toNat
  let d := base / (v.getD (n - 1) 0 + 1)
  let u := u ++ [0]
  let u ← normalise d u
  let v ← normalise d v
  let (u, q) ← divLoop (v.take n) (m.toNat + 1) u []
  let rem ← denormalise d (u.take n)
  pure (popZeros q, popZeros rem)

def fromUInt64 (v : ℕ) : List ℕ := if v = 0 then [0] else pushLimbs v

/-- One iteration of `magnitudeToBinary16` on what remains and the words found. -/
def binary16Step (s : List ℕ × List ℕ) : Run Exception (List ℕ × List ℕ) :=
  let (remaining, remainder) := divMagByLimb s.1 65536
  pure (remaining, s.2 ++ [wrap 16 remainder])

/-- `magnitudeToBinary16`: divide by `65536` until nothing is left. -/
def magnitudeToBinary16 (magnitude : List ℕ) : Run Exception (List ℕ) := do
  let (_, words) ← Run.whileLoop (fun s => decide (s.1 ≠ [0])) binary16Step
    (2 * magnitude.length) (magnitude, [])
  pure (if words = [] then [0] else words)

/-- `binary16ToMagnitude`: Horner's rule from the top word down. -/
def binary16ToMagnitude (words : List ℕ) : List ℕ :=
  words.foldr (fun word magnitude =>
    let magnitude := mulMag magnitude [65536]
    if word ≠ 0 then addMag magnitude [word] else magnitude) [0]

/-- `words.resize(count, 0)`. -/
def resize (words : List ℕ) (count : ℕ) : List ℕ :=
  words.take count ++ List.replicate (count - words.length) 0

/-- `static_cast<uint16_t>(~word)`. -/
def complement16 (word : ℕ) : ℕ := wrap 16 (~~~(word : ℤ))

/-- The increment loop of the two's-complement conversions: add the carry to the lowest
word and stop at the first word that does not carry. -/
def addCarry16 : List ℕ → ℕ → List ℕ
  | [], _ => []
  | word :: words, carry =>
    let sum := wrap 32 (word + carry)
    if sum >>> 16 = 0 then wrap 16 sum :: words
    else wrap 16 sum :: addCarry16 words (sum >>> 16)

/-- Complement every word and add one. -/
def negateWords (words : List ℕ) : List ℕ := addCarry16 (words.map complement16) 1

def toTwosComplement16 (value : BigInteger) (wordCount : ℕ) : Run Exception (List ℕ) := do
  let words ← magnitudeToBinary16 value.mag
  let words := resize words wordCount
  pure (if value.negative then negateWords words else words)

def fromTwosComplement16 (words : List ℕ) : BigInteger :=
  let negative := decide (words.getLastD 0 &&& 0x8000 ≠ 0)
  let words := if negative then negateWords words else words
  trim ⟨negative, binary16ToMagnitude words⟩

/-- The operation character of `bitwise`: `'&'`, `'|'`, and `'^'` for its default. -/
inductive BitwiseOperation where
  | and
  | or
  | xor

/-- One word of the `switch` in `bitwise`. -/
def BitwiseOperation.apply : BitwiseOperation → ℕ → ℕ → ℕ
  | .and, x, y => wrap 16 (x &&& y : ℕ)
  | .or, x, y => wrap 16 (x ||| y : ℕ)
  | .xor, x, y => wrap 16 (x ^^^ y : ℕ)

/-- `bitwise`: word by word on two's complements one word longer than both operands. -/
def bitwise (a b : BigInteger) (operation : BitwiseOperation) : Run Exception BigInteger := do
  let aWords ← magnitudeToBinary16 a.mag
  let bWords ← magnitudeToBinary16 b.mag
  let wordCount := max aWords.length bWords.length + 1
  let left ← toTwosComplement16 a wordCount
  let right ← toTwosComplement16 b wordCount
  pure (fromTwosComplement16 (List.zipWith operation.apply left right))

/-- `BigInteger()`. -/
def default : BigInteger := ⟨false, [0]⟩

/-- `BigInteger(intcs)`: the magnitude is negated in 64 bits. -/
def ofIntcs (v : Int32) : BigInteger :=
  let negative := decide (v < 0)
  ⟨negative, fromUInt64 (if negative then wrap 64 (-v.toInt) else wrap 64 v.toInt)⟩

/-- `BigInteger(longcs)`: the magnitude is negated by unsigned wraparound. -/
def ofLongcs (v : Int64) : BigInteger :=
  let negative := decide (v < 0)
  ⟨negative, fromUInt64 (if negative then wrap 64 (0 - (wrap 64 v.toInt : ℕ)) else wrap 64 v.toInt)⟩

/-- Pack bytes into 16-bit words, the even ones low. -/
def packWords : List ℕ → List ℕ
  | [] => []
  | [x] => [wrap 16 x]
  | x :: y :: bytes => wrap 16 (x ||| (y <<< 8) : ℕ) :: packWords bytes

/-- `words.back() |= 0xFF00`. -/
def fillTop (words : List ℕ) : List ℕ :=
  words.dropLast ++ [words.getLastD 0 ||| 0xFF00]

/-- `BigInteger(const std::vector<uint8_t>&, bool, bool)`. -/
def ofBytes (value : List UInt8) (isUnsigned isBigEndian : Bool) : BigInteger :=
  if value = [] then ⟨false, [0]⟩
  else
    let bytes := value.map UInt8.toNat
    let littleEndian := if isBigEndian then bytes.reverse else bytes
    let negative := !isUnsigned && decide (littleEndian.getLastD 0 &&& 0x80 ≠ 0)
    let words := packWords littleEndian
    let words := if negative && decide (littleEndian.length % 2 ≠ 0) then fillTop words else words
    if negative then fromTwosComplement16 words
    else trim ⟨false, binary16ToMagnitude words⟩

def getIsZeroProperty (x : BigInteger) : Bool := decide (x.mag = [0])

/-- Unary `operator-`. -/
def neg (x : BigInteger) : BigInteger :=
  if x.getIsZeroProperty then x else ⟨!x.negative, x.mag⟩

/-- `Abs`. -/
def abs (x : BigInteger) : BigInteger := ⟨false, x.mag⟩

/-- `operator+`. -/
def add (a b : BigInteger) : BigInteger :=
  if a.negative = b.negative then trim ⟨a.negative, addMag a.mag b.mag⟩
  else
    let c := cmpMag a.mag b.mag
    if c = 0 then ofIntcs 0
    else if 0 < c then trim ⟨a.negative, subMag a.mag b.mag⟩
    else trim ⟨b.negative, subMag b.mag a.mag⟩

/-- Binary `operator-`. -/
def sub (a b : BigInteger) : BigInteger := a.add b.neg

/-- `operator*`. -/
def mul (a b : BigInteger) : BigInteger :=
  trim ⟨a.negative != b.negative, mulMag a.mag b.mag⟩

/-- The limbs of `operator/`: a single-limb divisor takes the short path. -/
def quotientMag (a b : List ℕ) : Run Exception (List ℕ) :=
  if b.length = 1 then pure (divMagByLimb a (b.headD 0)).1 else Prod.fst <$> divmodMag a b

/-- The limbs of `operator%`. -/
def remainderMag (a b : List ℕ) : Run Exception (List ℕ) :=
  if b.length = 1 then pure [(divMagByLimb a (b.headD 0)).2] else Prod.snd <$> divmodMag a b

/-- `operator/`. -/
def div (a b : BigInteger) : Run Exception BigInteger :=
  if b.getIsZeroProperty then Run.throwing (.divideByZero "Attempted to divide by zero.")
  else if a.getIsZeroProperty then pure (ofIntcs 0)
  else
    let c := cmpMag a.mag b.mag
    if c < 0 then pure (ofIntcs 0)
    else if c = 0 then pure ⟨a.negative != b.negative, (ofIntcs 1).mag⟩
    else do
      let q ← quotientMag a.mag b.mag
      pure (trim ⟨a.negative != b.negative, q⟩)

/-- `operator%`. -/
def mod (a b : BigInteger) : Run Exception BigInteger :=
  if b.getIsZeroProperty then Run.throwing (.divideByZero "Attempted to divide by zero.")
  else if a.getIsZeroProperty then pure (ofIntcs 0)
  else
    let c := cmpMag a.mag b.mag
    if c < 0 then pure a
    else if c = 0 then pure (ofIntcs 0)
    else do
      let rem ← remainderMag a.mag b.mag
      pure (trim ⟨a.negative, rem⟩)

/-- `operator&`. -/
def and (a b : BigInteger) : Run Exception BigInteger := bitwise a b .and

/-- `operator|`. -/
def or (a b : BigInteger) : Run Exception BigInteger := bitwise a b .or

/-- `operator^`. -/
def xor (a b : BigInteger) : Run Exception BigInteger := bitwise a b .xor

/-- `operator~`. -/
def complement (x : BigInteger) : Run Exception BigInteger := do
  let magnitude ← magnitudeToBinary16 x.mag
  let words ← toTwosComplement16 x (magnitude.length + 1)
  pure (fromTwosComplement16 (words.map complement16))

/-- The word loop of `operator<<`, with the bits carried into the word. -/
def shiftWordsLeft (bitShift : ℕ) : List ℕ → ℕ → List ℕ
  | [], carry => if carry ≠ 0 then [wrap 16 carry] else []
  | word :: words, carry =>
    let shifted := wrap 32 (word <<< bitShift : ℕ) ||| carry
    wrap 16 shifted :: shiftWordsLeft bitShift words (shifted >>> 16)

/-- `operator<<` for a positive count. -/
def shiftLeftBy (x : BigInteger) (shift : ℕ) : Run Exception BigInteger := do
  let source ← magnitudeToBinary16 x.mag
  let words := List.replicate (shift / 16) 0 ++ shiftWordsLeft (shift % 16) source 0
  pure (trim ⟨x.negative, binary16ToMagnitude words⟩)

/-- The word loop of `operator>>`: each word takes the low bits of the next. -/
def shiftWordsRight (bitShift : ℕ) : List ℕ → List ℕ
  | [] => []
  | word :: words =>
    wrap 16 ((word >>> bitShift) ||| wrap 32 (words.headD 0 <<< (16 - bitShift) : ℕ) : ℕ) ::
      shiftWordsRight bitShift words

/-- `operator>>` for a positive count: shift the magnitude, and round a negative value
away from zero when a set bit was dropped. -/
def shiftRightBy (x : BigInteger) (shift : ℕ) : Run Exception BigInteger := do
  let wordShift := shift / 16
  let bitShift := shift % 16
  let source ← magnitudeToBinary16 x.mag
  if source.length ≤ wordShift then pure (if x.negative then ofIntcs (-1) else ofIntcs 0)
  else
    let dropped := (source.take wordShift).any fun word => decide (word ≠ 0)
    let words := source.drop wordShift
    let remainder := dropped ||
      (decide (bitShift ≠ 0) && decide (words.headD 0 &&& ((1 <<< bitShift) - 1) ≠ 0))
    let words := if bitShift ≠ 0 then shiftWordsRight bitShift words else words
    let mag := binary16ToMagnitude words
    let mag := if x.negative && remainder then addMag mag [1] else mag
    pure (trim ⟨x.negative, mag⟩)

private theorem neg_not_lt_zero {shift : Int32} (h : shift < 0) (hmin : shift ≠ Int32.minValue) :
    ¬ -shift < 0 := by grind

mutual

/-- `operator<<`. -/
def shl (x : BigInteger) (shift : Int32) : Run Exception BigInteger :=
  if shift = 0 || x.getIsZeroProperty then pure x
  else if shift = Int32.minValue then do
    let y ← shr x Int32.maxValue
    shr y 1
  else if shift < 0 then shr x (-shift)
  else shiftLeftBy x shift.toInt.toNat
termination_by if shift < 0 then 1 else 0
decreasing_by
  · subst_vars; decide
  · subst_vars; decide
  · simp [*, neg_not_lt_zero]

/-- `operator>>`. -/
def shr (x : BigInteger) (shift : Int32) : Run Exception BigInteger :=
  if shift = 0 || x.getIsZeroProperty then pure x
  else if shift = Int32.minValue then do
    let y ← shl x 1
    shl y Int32.maxValue
  else if shift < 0 then shl x (-shift)
  else shiftRightBy x shift.toInt.toNat
termination_by if shift < 0 then 1 else 0
decreasing_by
  · subst_vars; decide
  · subst_vars; decide
  · simp [*, neg_not_lt_zero]

end

/-- `operator==`. -/
def eq (a b : BigInteger) : Bool := a.negative == b.negative && a.mag == b.mag

/-- `operator!=`. -/
def ne (a b : BigInteger) : Bool := !a.eq b

/-- `operator<`. -/
def lt (a b : BigInteger) : Bool :=
  if a.negative ≠ b.negative then a.negative
  else
    let c := cmpMag a.mag b.mag
    if a.negative then decide (0 < c) else decide (c < 0)

/-- `operator<=`. -/
def le (a b : BigInteger) : Bool := !b.lt a

/-- `operator>`. -/
def gt (a b : BigInteger) : Bool := b.lt a

/-- `operator>=`. -/
def ge (a b : BigInteger) : Bool := !a.lt b

def isParseWhite (c : Char) : Bool := c.toNat = 0x20 || (0x09 ≤ c.toNat && c.toNat ≤ 0x0D)

/-- `std::stoul` on a string of digits. -/
def stoul (digits : List Char) : ℕ := Printed.value 10 (digits.map Printed.charDigit)

/-- The loop of `parse` over chunks of nine digits, from position `i` down to `start`. -/
def parseLimbs (trimmed : List Char) (start i : ℤ) : List ℕ :=
  if start < i then
    let chunk := max start (i - 9)
    wrap 32 (stoul ((trimmed.drop chunk.toNat).take (i - chunk).toNat)) ::
      parseLimbs trimmed start chunk
  else []
termination_by (i - start).toNat
decreasing_by omega

/-- The exception of `parse`. -/
def parseFault : Exception := .format "The value could not be parsed."

/-- `parse`: the sizes are cast to `int` for the loop. -/
def parse (s : List Char) : Run Exception BigInteger :=
  let trimmed := (s.dropWhile isParseWhite).rdropWhile isParseWhite
  if trimmed = [] then Run.throwing parseFault
  else
    let neg := decide (trimmed.head? = some '-')
    let start := if neg || decide (trimmed.head? = some '+') then 1 else 0
    if trimmed.length ≤ start then Run.throwing parseFault
    else if (trimmed.drop start).any (fun c => !Printed.isDigit c) then Run.throwing parseFault
    else
      let m := parseLimbs trimmed start (toIntcs trimmed.length)
      let m := if m = [] then [0] else m
      pure (trim ⟨neg, m⟩)

/-- `tryParse`: what it returns, and what it leaves in `result`. -/
def tryParse (s : List Char) : Bool × BigInteger :=
  match (parse s).outcome with
  | .returned r => (true, r)
  | _ => (false, ofIntcs 0)

/-- `std::to_string` of a limb. -/
def limbText (limb : ℕ) : List Char := Printed.text (Printed.numeral 10 limb)

/-- The loop of `toString` over the limbs below a position, from the top down. -/
def toStringLoop (mag : List ℕ) : ℕ → List Char → List Char
  | 0, s => s
  | i + 1, s =>
    let chunk := limbText (mag.getD i 0)
    toStringLoop mag i
      (if s = [] then chunk else s ++ (List.replicate (9 - chunk.length) '0' ++ chunk))

/-- `toString`: the number of limbs is cast to `int`. -/
def toString (x : BigInteger) : List Char :=
  if x.getIsZeroProperty then ['0']
  else
    let s := toStringLoop x.mag (toIntcs x.mag.length).toNat []
    if x.negative then '-' :: s else s

end BigInteger

end SharpRuntime.Model
