import SharpRuntime.Model.BitArray

/-!
# Shifts of a `BitArray`

Both loops read bits that they have not yet overwritten, so each visited bit gets the old bit it
should (`leftShiftLoop_getD`, `rightShiftLoop_getD`).  The right shift adds the count to an index
in 32 bits, and this overflows where the last index and the count together pass the largest
`intcs` (`rightShiftLoop_not_clean`).  An array whose size is no `intcs` is only visited up to the
cut size.
-/

set_option autoImplicit false

namespace SharpRuntime.Analysis.BitArrayShifts

open Machine Model Model.BitArray

section Bits

variable (bits : List Bool) (count i : ℕ)

def shiftedLeft : Bool := if i < count then false else bits.getD (i - count) false

/-- The bit that a shift towards lower indices puts at `i`; there are none from the length on. -/
def shiftedRight : Bool := bits.getD (i + count) false

/-- The number of bits that the loops visit: the size, cut to an `intcs`. -/
def visited : ℕ := (toIntcs bits.length).toNat

end Bits

theorem visited_le (bits : List Bool) : visited bits ≤ bits.length := by
  unfold visited
  have hspec := toIntcs_spec bits.length
  rcases Nat.lt_or_ge intcsMax bits.length with h | h
  · omega
  · rw [toIntcs_of_le h]
    omega

variable {bits : List Bool}

theorem visited_eq (h : bits.length ≤ intcsMax) : visited bits = bits.length := by
  unfold visited
  rw [toIntcs_of_le h, Int.toNat_natCast]

theorem getD_set (bits : List Bool) (i k : ℕ) (b : Bool) :
    (bits.set i b).getD k false = if k = i ∧ i < bits.length then b else bits.getD k false := by
  grind

variable {rest : ℕ}

/-- The loop, from the top down, has shifted what it has passed. -/
theorem leftShiftLoop_getD (count : ℕ) (h : rest ≤ bits.length) (k : ℕ) :
    (leftShiftLoop count rest bits).getD k false =
      if k < rest then shiftedLeft bits count k else bits.getD k false := by
  induction rest generalizing bits with
  | zero => simp [leftShiftLoop]
  | succ i ih =>
    have hbit : (if (i : ℤ) ≥ count then bits.getD ((i : ℤ) - count).toNat false else false) =
        shiftedLeft bits count i := by grind [shiftedLeft]
    rw [leftShiftLoop, hbit, ih (by rw [List.length_set]; omega), getD_set]
    rcases Nat.lt_trichotomy k i with hlt | rfl | hgt
    · grind [shiftedLeft, getD_set]
    · rw [if_neg (by omega), if_pos ⟨rfl, h⟩, if_pos (by omega)]
    · rw [if_neg (by omega), if_neg (by omega), if_neg (by omega)]

theorem length_leftShiftLoop (count : ℤ) (rest : ℕ) (bits : List Bool) :
    (leftShiftLoop count rest bits).length = bits.length := by
  induction rest generalizing bits with
  | zero => rfl
  | succ i ih => rw [leftShiftLoop, ih, List.length_set]

variable {len i : ℕ}

/-- The loop, from the bottom up, has shifted what it has passed. -/
theorem rightShiftLoop_getD {count : ℕ} {bits : List Bool}
    (hend : i + rest = len) (hlen : len ≤ bits.length)
    (hfits : rest = 0 ∨ len - 1 + count ≤ intcsMax) :
    ∃ shifted, rightShiftLoop count len rest i bits = pure shifted ∧
      shifted.length = bits.length ∧
      ∀ k, shifted.getD k false =
        if i ≤ k ∧ k < len then decide (k + count < len) && bits.getD (k + count) false
        else bits.getD k false := by
  induction rest generalizing i bits with
  | zero =>
    refine ⟨bits, rfl, rfl, fun k => ?_⟩
    rw [if_neg (by omega)]
  | succ rest ih =>
    have hmax : intcsMax = 2147483647 := rfl
    have hbit : (if (i : ℤ) + count < len then
          decide (0 ≤ (i : ℤ) + count) && bits.getD ((i : ℤ) + count).toNat false else false) =
        (decide (i + count < len) && bits.getD (i + count) false) := by grind
    obtain ⟨shifted, hrun, hlength, hget⟩ := @ih (i + 1)
      (bits.set i (decide (i + count < len) && bits.getD (i + count) false)) (by omega)
      (by rw [List.length_set]; exact hlen) (by omega)
    refine ⟨shifted, ?_, by rw [hlength, List.length_set], fun k => ?_⟩
    · rw [rightShiftLoop, Run.signed_eq_pure (by decide) (by omega) (by omega), pure_bind]
      simp only [hbit]
      exact hrun
    · rw [hget]
      rcases Nat.lt_trichotomy k i with hlt | rfl | hgt
      · grind
      · grind
      · grind [getD_set]

variable {count : ℕ}

/-- An index past the largest `int` overflows. -/
theorem rightShiftLoop_not_clean
    (hend : i + rest = len) (hrest : 0 < rest) (hpast : intcsMax < len - 1 + count) :
    (rightShiftLoop count len rest i bits).clean = false := by
  induction rest generalizing i bits with
  | zero => exact absurd hrest (Nat.lt_irrefl 0)
  | succ rest ih =>
    rw [rightShiftLoop]
    by_cases hlast : rest = 0
    · refine Run.clean_bind_of_not ?_ _
      have hmax : intcsMax = 2147483647 := rfl
      simp only [Run.signed, decide_eq_false_iff_not]
      omega
    · by_cases hfits : (i : ℤ) + count ≤ intcsMax
      · have hmax : intcsMax = 2147483647 := rfl
        rw [Run.signed_eq_pure (by decide) (by omega) (by omega), pure_bind]
        exact ih (by omega) (by omega)
      · refine Run.clean_bind_of_not ?_ _
        have hmax : intcsMax = 2147483647 := rfl
        simp only [Run.signed, decide_eq_false_iff_not]
        omega

/-- A call that gives every bit of the array the value it should have, in place. -/
def Shifts (x : BitArray) (bit : ℕ → Bool) (r : Run Exception BitArray) : Prop :=
  ∃ y, r = pure y ∧ y.bits_.length = x.bits_.length ∧
    (∀ i < x.bits_.length, y.bits_.getD i false = bit i) ∧ y.version_ = x.version_ + 1

def ShiftsBothWays (x : BitArray) (count : ℕ) : Prop :=
  Shifts x (shiftedLeft x.bits_ count) (x.leftShift count) ∧
    Shifts x (shiftedRight x.bits_ count) (x.rightShift count)

/-- A shift to the left and back clears the topmost bits and no others. -/
def ClearsTop (x : BitArray) (count : ℕ) : Prop :=
  ∃ y, x.leftShift count = pure y ∧
    Shifts y (fun i => decide (i < x.bits_.length - min count x.bits_.length) &&
      x.bits_.getD i false) (y.rightShift count)

/-- No index overflows, and the bits that are not visited, of which there are only in an array whose
size is no `intcs`, are what the shifts should make them. -/
def Shiftable (bits : List Bool) (count : ℕ) : Prop :=
  toIntcs bits.length ≠ -2147483648 ∧ (visited bits = 0 ∨ visited bits - 1 + count ≤ intcsMax) ∧
    ∀ i < bits.length,
      (visited bits ≤ i → bits.getD i false = shiftedLeft bits count i ∧
        bits.getD i false = shiftedRight bits count i) ∧
      (i < visited bits → visited bits ≤ i + count → shiftedRight bits count i = false)

theorem shiftable_iff (h : bits.length ≤ intcsMax) (count : ℕ) :
    Shiftable bits count ↔ bits = [] ∨ bits.length - 1 + count ≤ intcsMax := by
  rw [Shiftable, visited_eq h, toIntcs_of_le h, ← List.length_eq_zero_iff]
  constructor
  · rintro ⟨-, hfits, -⟩
    exact hfits
  · intro hfits
    refine ⟨by omega, hfits, fun i hi => ⟨fun hle => absurd hi (by omega), fun _ hle => ?_⟩⟩
    rw [shiftedRight, List.getD_eq_default _ _ hle]

variable {x : BitArray}

theorem leftShift_eq (count : ℕ) (h : toIntcs x.bits_.length ≠ -2147483648) : x.leftShift count =
      pure ⟨leftShiftLoop count (visited x.bits_) x.bits_, x.version_ + 1⟩ := by
  have hspec := toIntcs_spec x.bits_.length
  rw [leftShift, if_neg (by omega)]
  dsimp only
  rw [Run.signed_eq_pure (by decide) (by omega) (by omega), pure_bind, Int.sub_add_cancel]
  rfl

theorem leftShift_iff (x : BitArray) (count : ℕ) :
    Shifts x (shiftedLeft x.bits_ count) (x.leftShift count) ↔
      toIntcs x.bits_.length ≠ -2147483648 ∧ ∀ i < x.bits_.length, visited x.bits_ ≤ i →
        x.bits_.getD i false = shiftedLeft x.bits_ count i := by
  have hvisited := visited_le x.bits_
  by_cases hmin : toIntcs x.bits_.length = -2147483648
  · refine ⟨fun ⟨y, hy, _⟩ => ?_, fun h => absurd hmin h.1⟩
    have hclean : (x.leftShift count).clean = false := by
      refine Run.clean_bind_of_not ?_ _
      rw [hmin]
      decide
    rw [hy] at hclean
    cases hclean
  · rw [leftShift_eq count hmin]
    constructor
    · rintro ⟨y, hy, -, hbits, -⟩
      obtain rfl := Run.pure_inj.mp hy
      refine ⟨hmin, fun i hi hle => ?_⟩
      rw [← hbits i hi, leftShiftLoop_getD count hvisited, if_neg (by omega)]
    · rintro ⟨-, hrest⟩
      refine ⟨_, rfl, ?_, fun i hi => ?_, rfl⟩
      · rw [length_leftShiftLoop]
      · rw [leftShiftLoop_getD count hvisited]
        by_cases hi' : i < visited x.bits_
        · rw [if_pos hi']
        · rw [if_neg hi', hrest i hi (by omega)]

theorem rightShift_iff (x : BitArray) (count : ℕ) :
    Shifts x (shiftedRight x.bits_ count) (x.rightShift count) ↔
      (visited x.bits_ = 0 ∨ visited x.bits_ - 1 + count ≤ intcsMax) ∧
        ∀ i < x.bits_.length,
          (visited x.bits_ ≤ i → x.bits_.getD i false = shiftedRight x.bits_ count i) ∧
          (i < visited x.bits_ → visited x.bits_ ≤ i + count →
            shiftedRight x.bits_ count i = false) := by
  have hvisited := visited_le x.bits_
  have hloop : ∀ rest, rest = visited x.bits_ →
      rightShiftLoop count (toIntcs x.bits_.length) rest 0 x.bits_ =
        rightShiftLoop count (visited x.bits_ : ℕ) rest 0 x.bits_ := by
    intro rest hrest
    by_cases hzero : visited x.bits_ = 0
    · rw [hrest, hzero, rightShiftLoop, rightShiftLoop]
    · unfold visited at hzero ⊢
      rw [Int.toNat_of_nonneg (by omega)]
  have hcall : x.rightShift count =
      (rightShiftLoop count (visited x.bits_ : ℕ) (visited x.bits_) 0 x.bits_ >>= fun bits =>
        pure ⟨bits, x.version_ + 1⟩) := by
    rw [← hloop _ rfl, rightShift, if_neg (by omega)]
    rfl
  by_cases hfits : visited x.bits_ = 0 ∨ visited x.bits_ - 1 + count ≤ intcsMax
  · obtain ⟨shifted, hrun, hlength, hget⟩ := rightShiftLoop_getD (Nat.zero_add _) hvisited hfits
    rw [hcall, hrun, pure_bind]
    constructor
    · rintro ⟨y, hy, -, hbits, -⟩
      obtain rfl := Run.pure_inj.mp hy
      refine ⟨hfits, fun i hi => ⟨fun hle => ?_, fun hlt hle => ?_⟩⟩
      · rw [← hbits i hi, hget, if_neg (by omega)]
      · rw [← hbits i hi, hget, if_pos ⟨Nat.zero_le _, hlt⟩, decide_eq_false (by omega),
          Bool.false_and]
    · rintro ⟨-, hrest⟩
      refine ⟨⟨shifted, x.version_ + 1⟩, rfl, hlength, fun i hi => ?_, rfl⟩
      rw [hget]
      by_cases hi' : i < visited x.bits_
      · rw [if_pos ⟨Nat.zero_le _, hi'⟩]
        by_cases hin : i + count < visited x.bits_
        · rw [decide_eq_true hin, Bool.true_and, shiftedRight]
        · rw [decide_eq_false hin, Bool.false_and, (hrest i hi).2 hi' (by omega)]
      · rw [if_neg (by omega), (hrest i hi).1 (by omega)]
  · refine ⟨fun ⟨y, hy, _⟩ => ?_, fun h => absurd h.1 hfits⟩
    rw [hcall] at hy
    have hpast : (rightShiftLoop count (visited x.bits_ : ℕ) (visited x.bits_) 0 x.bits_).clean =
        false := rightShiftLoop_not_clean (Nat.zero_add _) (by omega) (by omega)
    have hclean := Run.clean_bind_of_not hpast
      fun bits => (pure ⟨bits, x.version_ + 1⟩ : Run Exception BitArray)
    rw [hy] at hclean
    cases hclean

theorem shiftsBothWays_iff (x : BitArray) (count : ℕ) :
    ShiftsBothWays x count ↔ Shiftable x.bits_ count := by
  grind [ShiftsBothWays, leftShift_iff, rightShift_iff, Shiftable]

theorem Shifts.congr {bit bit' : ℕ → Bool} {r : Run Exception BitArray}
    (h : Shifts x bit r) (hbit : ∀ i < x.bits_.length, bit i = bit' i) : Shifts x bit' r := by
  obtain ⟨y, hy, hlength, hbits, hversion⟩ := h
  exact ⟨y, hy, hlength, fun i hi => (hbits i hi).trans (hbit i hi), hversion⟩

theorem clears_of_length_le (h : ShiftsBothWays x count) (hcount : x.bits_.length ≤ count) :
    Shifts x (fun _ => false) (x.leftShift count) ∧
      Shifts x (fun _ => false) (x.rightShift count) := by
  refine ⟨h.1.congr fun i hi => if_pos (by omega), h.2.congr fun i hi => ?_⟩
  rw [shiftedRight, List.getD_eq_default _ _ (by omega)]

theorem clearsTop (hlen : x.bits_.length ≤ intcsMax)
    (h : Shiftable x.bits_ count) : ClearsTop x count := by
  obtain ⟨y, hy, hlength, hbits, -⟩ := ((shiftsBothWays_iff x count).mpr h).1
  have hback : Shiftable y.bits_ count := by grind [shiftable_iff]
  refine ⟨y, hy, ((shiftsBothWays_iff y count).mpr hback).2.congr fun i hi => ?_⟩
  rw [shiftedRight]
  by_cases htop : i + count < x.bits_.length
  · grind [shiftedLeft]
  · rw [List.getD_eq_default _ _ (by omega), decide_eq_false (by omega), Bool.false_and]

/-- **Shifts of a bit array.**  Both shifts by a count give every bit its value exactly when the
array is shiftable by it: in an array whose size is an `intcs`, when the last index and the count
together are one.  Then a count of the length or more clears every bit, and a shift to the left and
back clears the topmost bits only. -/
theorem shifts_iff (x : BitArray) (count : ℕ) :
    (ShiftsBothWays x count ↔ Shiftable x.bits_ count) ∧
      (x.bits_.length ≤ intcsMax →
        (Shiftable x.bits_ count ↔ x.bits_ = [] ∨ x.bits_.length - 1 + count ≤ intcsMax) ∧
        (Shiftable x.bits_ count → ClearsTop x count ∧
          (x.bits_.length ≤ count → Shifts x (fun _ => false) (x.leftShift count) ∧
            Shifts x (fun _ => false) (x.rightShift count)))) := by
  refine ⟨shiftsBothWays_iff x count, fun hlen => ⟨shiftable_iff hlen count, fun h => ?_⟩⟩
  exact ⟨clearsTop hlen h, clears_of_length_le ((shiftsBothWays_iff x count).mpr h)⟩

/-- Two bits are not shifted right by the largest count: the index of the second one overflows. -/
theorem rightShift_overflows :
    ¬ ShiftsBothWays ⟨[true, true], 0⟩ intcsMax := by
  rw [shiftsBothWays_iff, shiftable_iff (by decide)]
  decide

end SharpRuntime.Analysis.BitArrayShifts
