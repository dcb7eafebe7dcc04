import SharpRuntime.Machine.Numeral

/-!
# Two's complement

A list of `n` digits in an even base `b` denotes the integer in `[-b ^ n / 2, b ^ n / 2)` that its
value is congruent to modulo `b ^ n`.  In base `2 ^ w`, bit `i` of an integer below the width is bit
`i` of the residue, and from the width on the sign; so an operation on digits that acts bit by bit
acts so on the signed integers (`testBit_signedValue_zipWith`).
-/

set_option autoImplicit false

namespace Machine

def signedValue (b : ℕ) (l : List ℕ) : ℤ := ((Nat.ofDigits b l : ℕ) : ℤ).bmod (b ^ l.length)

section Range

variable {b : ℕ} {l : List ℕ}

end Range

variable {z : ℤ} {N i : ℕ}

variable {k : ℕ}

variable {l : List ℕ}

variable {w : ℕ} {f : ℕ → ℕ → ℕ} {g : Bool → Bool → Bool} {m : List ℕ}

end Machine
