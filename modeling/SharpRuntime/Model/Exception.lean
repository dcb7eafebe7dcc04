import SharpRuntime.Machine.Run

/-!
# The exceptions of the runtime

The exception classes the modelled functions throw, each with the text and the
parameter name it is constructed with.
-/

set_option autoImplicit false

namespace SharpRuntime.Model

/-- The exceptions thrown by the modelled part of the runtime. -/
inductive Exception where
  | overflow (message : String)
  | divideByZero (message : String)
  | argumentOutOfRange (paramName message : String)
  | argument (message paramName : String)
  | argumentNull (paramName message : String)
  | format (message : String)
  | notSupported (message : String)
  | keyNotFound (message : String)
  | invalidOperation (message : String)
deriving DecidableEq

/-- The constructor from a parameter name alone.
SOURCE: ArgumentOutOfRangeException.cpp:14-19 -/
def Exception.outOfRange (paramName : String) : Exception :=
  .argumentOutOfRange paramName "Specified argument was out of the range of valid values."

/-!
# The sizes of the runtime

`intcs` is the runtime's 32-bit signed integer.  A container's size is cast to it wherever it is
reported, and a size that does not fit is cut.
-/

/-- The largest `intcs`. -/
def intcsMax : ℕ := 2147483647

/-- `static_cast<intcs>` of a size. -/
def toIntcs (n : ℕ) : ℤ := (n : ℤ).bmod (2 ^ 32)

theorem toIntcs_spec (n : ℕ) :
    -2147483648 ≤ toIntcs n ∧ toIntcs n < 2147483648 ∧ (toIntcs n - n) % 4294967296 = 0 := by
  have hsize : ((2 ^ 32 : ℕ) : ℤ) = 4294967296 := by norm_num
  have hmod : toIntcs n % 4294967296 = (n : ℤ) % 4294967296 := by
    rw [← hsize]
    exact Int.bmod_emod
  have hlow : -(((2 ^ 32 : ℕ) : ℤ) / 2) ≤ toIntcs n := Int.le_bmod (by norm_num)
  have hhigh : toIntcs n < (((2 ^ 32 : ℕ) : ℤ) + 1) / 2 := Int.bmod_lt (by norm_num)
  rw [hsize] at hlow hhigh
  omega

theorem toIntcs_of_le {n : ℕ} (h : n ≤ intcsMax) : toIntcs n = n := by
  have hspec := toIntcs_spec n
  unfold intcsMax at h
  omega

theorem toIntcs_of_lt {n : ℕ} (h : intcsMax < n) :
    toIntcs n < 0 ∨ (0 ≤ toIntcs n ∧ (toIntcs n).toNat + 4294967296 ≤ n) := by
  have hspec := toIntcs_spec n
  unfold intcsMax at h
  omega

end SharpRuntime.Model
