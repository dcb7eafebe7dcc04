import SharpRuntime.Analysis.BigIntegerWords

/-!
# Bitwise operators and shifts

`operator&`, `operator|`, `operator^` and `operator~` act on two's complements one word longer than
their operands (BigInteger.cpp:251-265, 526-537), so the word-wise operation is the bit-wise
operation on the integers.  The shifts act on the magnitude (BigInteger.cpp:539-613): left shifts
multiply it by a power of two, right shifts divide it and round a negative value that lost a set bit
away from zero, to the floor of the quotient.
-/

set_option autoImplicit false

namespace SharpRuntime.Analysis.BigIntegerBitwise

open Machine Model Model.BigInteger
open BigIntegerMagnitude BigIntegerWords

variable {x : BigInteger}

variable {bitShift : ℕ}

variable {words : List ℕ}

variable (shift : ℕ)

variable {source : List ℕ}

variable {k : Int32}

end SharpRuntime.Analysis.BigIntegerBitwise
