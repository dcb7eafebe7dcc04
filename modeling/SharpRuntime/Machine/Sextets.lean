import SharpRuntime.Machine.Printed

/-!
# Bits in groups

A stream of bits comes in as groups of `v` bits and goes out as groups of `w` bits; the bits that
fill no group wait in a buffer.  What went out is determined by what came in, and the groups that
went out, with zeros behind the last bits, can be regrouped to what came in.
-/

set_option autoImplicit false

namespace Machine

open Printed

/-- The groups `ins` of `v` bits are the groups `outs` of `w` bits and then `bits` more bits, which
are the number `buffer`. -/
structure Regrouped (v w : ℕ) (ins outs : List ℕ) (buffer bits : ℕ) : Prop where
  value_eq : value (2 ^ v) ins = value (2 ^ w) outs * 2 ^ bits + buffer
  length_eq : v * ins.length = w * outs.length + bits
  buffer_lt : buffer < 2 ^ bits
  lt_of_mem : ∀ d ∈ outs, d < 2 ^ w

namespace Regrouped

variable {v w : ℕ} {ins outs : List ℕ} {buffer bits : ℕ}

theorem nil (v w : ℕ) : Regrouped v w [] [] 0 0 where
  value_eq := by rw [value_nil, value_nil, Nat.zero_mul]
  length_eq := rfl
  buffer_lt := Nat.one_pos
  lt_of_mem := nofun

theorem push (h : Regrouped v w ins outs buffer bits) {group : ℕ} (hgroup : group < 2 ^ v) :
    Regrouped v w (ins ++ [group]) outs (buffer * 2 ^ v + group) (bits + v) where
  value_eq := by
    rw [value_concat, h.value_eq, pow_add]
    ring
  length_eq := by
    rw [List.length_append, List.length_singleton, Nat.mul_add, h.length_eq]
    omega
  buffer_lt := by
    have hle := Nat.mul_le_mul_right (2 ^ v) (Nat.succ_le_of_lt h.buffer_lt)
    rw [pow_add]
    rw [Nat.succ_mul] at hle
    omega
  lt_of_mem := h.lt_of_mem

theorem pop (h : Regrouped v w ins outs buffer bits) (hbits : w ≤ bits) :
    Regrouped v w ins (outs ++ [buffer / 2 ^ (bits - w)]) (buffer % 2 ^ (bits - w)) (bits - w) := by
  have hpow : 2 ^ bits = 2 ^ w * 2 ^ (bits - w) := by
    rw [← pow_add, Nat.add_sub_cancel' hbits]
  have hbuffer := Nat.div_add_mod buffer (2 ^ (bits - w))
  refine ⟨?_, ?_, Nat.mod_lt _ (Nat.two_pow_pos _), ?_⟩
  · rw [h.value_eq, value_concat, hpow]
    calc value (2 ^ w) outs * (2 ^ w * 2 ^ (bits - w)) + buffer
        = value (2 ^ w) outs * (2 ^ w * 2 ^ (bits - w)) +
            (2 ^ (bits - w) * (buffer / 2 ^ (bits - w)) + buffer % 2 ^ (bits - w)) := by
          rw [hbuffer]
      _ = _ := by ring
  · rw [h.length_eq, List.length_append, List.length_singleton, Nat.mul_add]
    omega
  · intro d hd
    rcases List.mem_append.mp hd with hd | hd
    · exact h.lt_of_mem d hd
    · obtain rfl := List.mem_singleton.mp hd
      have hlt := h.buffer_lt
      rw [hpow] at hlt
      exact Nat.div_lt_of_lt_mul (by rwa [Nat.mul_comm])

theorem unique (h : Regrouped v w ins outs buffer bits) (hbits : bits < w) {outs' : List ℕ}
    {buffer' bits' : ℕ} (h' : Regrouped v w ins outs' buffer' bits') (hbits' : bits' < w) :
    outs = outs' ∧ buffer = buffer' ∧ bits = bits' := by
  have hw : 0 < w := by omega
  have hlength : w * outs.length + bits = w * outs'.length + bits' :=
    h.length_eq.symm.trans h'.length_eq
  have hbitsEq : bits = bits' := by
    have hmod := congrArg (· % w) hlength
    simpa only [Nat.mul_add_mod, Nat.mod_eq_of_lt hbits, Nat.mod_eq_of_lt hbits'] using hmod
  subst hbitsEq
  have hlengthEq : outs.length = outs'.length := Nat.eq_of_mul_eq_mul_left hw (by omega)
  have hvalue := h.value_eq.symm.trans h'.value_eq
  have hbuffer : buffer = buffer' := by
    have hmod := congrArg (· % 2 ^ bits) hvalue
    simpa only [Nat.mul_add_mod', Nat.mod_eq_of_lt h.buffer_lt, Nat.mod_eq_of_lt h'.buffer_lt]
      using hmod
  have hvalueEq : value (2 ^ w) outs = value (2 ^ w) outs' :=
    Nat.eq_of_mul_eq_mul_right (Nat.two_pow_pos bits) (by omega)
  refine ⟨?_, hbuffer, rfl⟩
  rw [← fixed_value h.lt_of_mem, hlengthEq, hvalueEq, fixed_value h'.lt_of_mem]

theorem back (h : Regrouped v w ins outs buffer 0) (hins : ∀ d ∈ ins, d < 2 ^ v) :
    Regrouped w v outs ins 0 0 where
  value_eq := by
    have hzero : buffer = 0 := Nat.lt_one_iff.mp h.buffer_lt
    have hvalue := h.value_eq
    omega
  length_eq := h.length_eq.symm
  buffer_lt := Nat.one_pos
  lt_of_mem := hins

theorem pad (h : Regrouped v w ins outs buffer bits) (hbits : bits ≤ w)
    (hins : ∀ d ∈ ins, d < 2 ^ v) :
    Regrouped w v (outs ++ [buffer * 2 ^ (w - bits)]) ins 0 (w - bits) where
  value_eq := by
    have hpow : 2 ^ w = 2 ^ bits * 2 ^ (w - bits) := by
      rw [← pow_add, Nat.add_sub_cancel' hbits]
    rw [value_concat, h.value_eq]
    nth_rewrite 2 [hpow]
    ring
  length_eq := by
    rw [h.length_eq, List.length_append, List.length_singleton, Nat.mul_add]
    omega
  buffer_lt := Nat.two_pow_pos _
  lt_of_mem := hins

end Regrouped

end Machine

/-!
# Bytes as sextets

Three bytes are four sextets, and the one or two bytes left over at the end are two or three
sextets whose spare low bits are zero.  `sextets` spells bytes and `octets` reads them back; it
reads nothing else (`octets_eq_some`).

A `Dialect` spells sextets with the letters of an alphabet, between which blanks may stand, and
may close the last quantum with padding.  `content` is what a text without blanks stands for; a
text that begins with whole quanta is read quantum by quantum (`content_append`).
-/

namespace Machine.Sextets

/-! ## Sextets -/

theorem neZero_sextet : NeZero 64 := ⟨by decide⟩

def sextet₀ (a : UInt8) : Fin 64 := Fin.ofNat 64 (a.toNat / 4)

def sextet₁ (a b : UInt8) : Fin 64 := Fin.ofNat 64 (a.toNat % 4 * 16 + b.toNat / 16)

def sextet₂ (b c : UInt8) : Fin 64 := Fin.ofNat 64 (b.toNat % 16 * 4 + c.toNat / 64)

def sextet₃ (c : UInt8) : Fin 64 := Fin.ofNat 64 c.toNat

def octet₀ (x y : Fin 64) : UInt8 := UInt8.ofNat (x * 4 + y / 16)

def octet₁ (y z : Fin 64) : UInt8 := UInt8.ofNat (y % 16 * 16 + z / 4)

def octet₂ (z w : Fin 64) : UInt8 := UInt8.ofNat (z % 4 * 64 + w)

def sextets : List UInt8 → List (Fin 64)
  | [] => []
  | [a] => [sextet₀ a, sextet₁ a 0]
  | [a, b] => [sextet₀ a, sextet₁ a b, sextet₂ b 0]
  | a :: b :: c :: bytes => sextet₀ a :: sextet₁ a b :: sextet₂ b c :: sextet₃ c :: sextets bytes

def octets : List (Fin 64) → Option (List UInt8)
  | [] => some []
  | [_] => none
  | [x, y] => if (y : ℕ) % 16 = 0 then some [octet₀ x y] else none
  | [x, y, z] => if (z : ℕ) % 4 = 0 then some [octet₀ x y, octet₁ y z] else none
  | x :: y :: z :: w :: sexts =>
    (octets sexts).map fun bytes => octet₀ x y :: octet₁ y z :: octet₂ z w :: bytes

variable (a b : UInt8) (x y z : Fin 64)

@[simp] theorem sextets_quantum (c : UInt8) (bytes : List UInt8) : sextets (a :: b :: c :: bytes) =
      sextet₀ a :: sextet₁ a b :: sextet₂ b c :: sextet₃ c :: sextets bytes := rfl

@[simp] theorem octets_quantum (w : Fin 64) (sexts : List (Fin 64)) :
    octets (x :: y :: z :: w :: sexts) =
      (octets sexts).map fun bytes => octet₀ x y :: octet₁ y z :: octet₂ z w :: bytes := rfl

@[simp] theorem octet₀_sextets : octet₀ (sextet₀ a) (sextet₁ a b) = a := by
  have ha := a.toNat_lt
  have hb := b.toNat_lt
  rw [← UInt8.toNat_inj]
  simp only [octet₀, sextet₀, sextet₁, Fin.val_ofNat, UInt8.toNat_ofNat']
  omega

@[simp] theorem octet₁_sextets (c : UInt8) : octet₁ (sextet₁ a b) (sextet₂ b c) = b := by
  have hb := b.toNat_lt
  have hc := c.toNat_lt
  rw [← UInt8.toNat_inj]
  simp only [octet₁, sextet₁, sextet₂, Fin.val_ofNat, UInt8.toNat_ofNat']
  omega

@[simp] theorem octet₂_sextets (c : UInt8) : octet₂ (sextet₂ b c) (sextet₃ c) = c := by
  have hc := c.toNat_lt
  rw [← UInt8.toNat_inj]
  simp only [octet₂, sextet₂, sextet₃, Fin.val_ofNat, UInt8.toNat_ofNat']
  omega

@[simp] theorem sextet₀_octet : sextet₀ (octet₀ x y) = x := by
  apply Fin.ext
  simp only [octet₀, sextet₀, Fin.val_ofNat, UInt8.toNat_ofNat']
  omega

@[simp] theorem sextet₁_octet : sextet₁ (octet₀ x y) (octet₁ y z) = y := by
  apply Fin.ext
  simp only [octet₀, octet₁, sextet₁, Fin.val_ofNat, UInt8.toNat_ofNat']
  omega

@[simp] theorem sextet₂_octet (w : Fin 64) : sextet₂ (octet₁ y z) (octet₂ z w) = z := by
  apply Fin.ext
  simp only [octet₁, octet₂, sextet₂, Fin.val_ofNat, UInt8.toNat_ofNat']
  omega

@[simp] theorem sextet₃_octet (w : Fin 64) : sextet₃ (octet₂ z w) = w := by
  apply Fin.ext
  simp only [octet₂, sextet₃, Fin.val_ofNat, UInt8.toNat_ofNat']
  omega

theorem sextet₁_spare : (sextet₁ a 0 : ℕ) % 16 = 0 := by
  simp only [sextet₁, Fin.val_ofNat, UInt8.toNat_zero]
  omega

theorem sextet₂_spare : (sextet₂ b 0 : ℕ) % 4 = 0 := by
  simp only [sextet₂, Fin.val_ofNat, UInt8.toNat_zero]
  omega

theorem sextet₁_octet_zero {x y : Fin 64} (h : (y : ℕ) % 16 = 0) : sextet₁ (octet₀ x y) 0 = y := by
  apply Fin.ext
  simp only [octet₀, sextet₁, Fin.val_ofNat, UInt8.toNat_ofNat', UInt8.toNat_zero]
  omega

theorem sextet₂_octet_zero {y z : Fin 64} (h : (z : ℕ) % 4 = 0) : sextet₂ (octet₁ y z) 0 = z := by
  apply Fin.ext
  simp only [octet₁, sextet₂, Fin.val_ofNat, UInt8.toNat_ofNat', UInt8.toNat_zero]
  omega

@[simp] theorem octets_sextets (bytes : List UInt8) : octets (sextets bytes) = some bytes := by
  fun_induction sextets bytes with
  | case1 => rfl
  | case2 a => rw [octets, if_pos (sextet₁_spare a), octet₀_sextets]
  | case3 a b => rw [octets, if_pos (sextet₂_spare b), octet₀_sextets, octet₁_sextets]
  | case4 a b c bytes ih =>
    rw [octets_quantum, ih, octet₀_sextets, octet₁_sextets, octet₂_sextets]
    rfl

theorem sextets_of_octets {sexts : List (Fin 64)} {bytes : List UInt8}
    (h : octets sexts = some bytes) : sextets bytes = sexts := by
  fun_induction octets sexts generalizing bytes with
  | case1 =>
    cases h
    rfl
  | case2 => cases h
  | case3 x y hspare =>
    cases h
    rw [sextets, sextet₀_octet, sextet₁_octet_zero hspare]
  | case4 => cases h
  | case5 x y z hspare =>
    cases h
    rw [sextets, sextet₀_octet, sextet₁_octet, sextet₂_octet_zero hspare]
  | case6 => cases h
  | case7 x y z w sexts ih =>
    obtain ⟨rest, hrest, rfl⟩ := Option.map_eq_some_iff.mp h
    rw [sextets_quantum, ih hrest, sextet₀_octet, sextet₁_octet, sextet₂_octet, sextet₃_octet]

/-- Sextets stand for bytes exactly if they are the sextets of those bytes. -/
theorem octets_eq_some {sexts : List (Fin 64)} {bytes : List UInt8} :
    octets sexts = some bytes ↔ sexts = sextets bytes := by
  constructor
  · exact fun h => (sextets_of_octets h).symm
  · rintro rfl
    exact octets_sextets bytes

theorem sextets_append {q : List UInt8} (hq : q.length % 3 = 0) (bytes : List UInt8) :
    sextets (q ++ bytes) = sextets q ++ sextets bytes := by
  fun_induction sextets q with
  | case1 => rfl
  | case2 a => simp at hq
  | case3 a b => simp at hq
  | case4 a b c q ih => grind [sextets_quantum]

theorem octets_append {q : List UInt8} (hq : q.length % 3 = 0) (sexts : List (Fin 64)) :
    octets (sextets q ++ sexts) = (octets sexts).map (q ++ ·) := by
  fun_induction sextets q with
  | case1 => simp
  | case2 a => simp at hq
  | case3 a b => simp at hq
  | case4 a b c q ih =>
    have hrest : q.length % 3 = 0 := by
      simp only [List.length_cons] at hq
      omega
    simp only [List.cons_append, octets_quantum, ih hrest, octet₀_sextets, octet₁_sextets,
      octet₂_sextets, Option.map_map]
    rfl

theorem length_sextets (bytes : List UInt8) :
    (sextets bytes).length = (bytes.length * 4 + 2) / 3 := by
  fun_induction sextets bytes with
  | case1 => rfl
  | case2 a => simp
  | case3 a b => simp
  | case4 a b c bytes ih =>
    simp only [List.length_cons, ih]
    omega

/-! ## Packing

Four sextets, or three bytes, in the low 24 bits of a word. -/

theorem or_sextets (w : Fin 64) : (x : ℕ) <<< 18 ||| (y : ℕ) <<< 12 ||| (z : ℕ) <<< 6 ||| (w : ℕ) =
      ((x * 64 + y) * 64 + z) * 64 + w := by
  have hxy : (x : ℕ) <<< 18 ||| (y : ℕ) <<< 12 = (x * 64 + y : ℕ) <<< 12 := by
    rw [← Nat.shiftLeft_add_eq_or_of_lt (by rw [Nat.shiftLeft_eq]; omega)]
    omega
  have hxyz : (x * 64 + y : ℕ) <<< 12 ||| (z : ℕ) <<< 6 = ((x * 64 + y) * 64 + z : ℕ) <<< 6 := by
    rw [← Nat.shiftLeft_add_eq_or_of_lt (by rw [Nat.shiftLeft_eq]; omega)]
    omega
  rw [hxy, hxyz, ← Nat.shiftLeft_add_eq_or_of_lt (by omega), Nat.shiftLeft_eq]

theorem or_sextets_three : (x : ℕ) <<< 18 ||| (y : ℕ) <<< 12 ||| (z : ℕ) <<< 6 =
      ((x * 64 + y) * 64 + z) * 64 + (0 : Fin 64) := by
  rw [← or_sextets, Fin.val_zero, Nat.or_zero]

theorem or_sextets_two :
    (x : ℕ) <<< 18 ||| (y : ℕ) <<< 12 = ((x * 64 + y) * 64 + (0 : Fin 64)) * 64 + (0 : Fin 64) := by
  rw [← or_sextets, Fin.val_zero, Nat.zero_shiftLeft, Nat.or_zero, Nat.or_zero]

theorem or_bytes (c : UInt8) :
    a.toNat <<< 16 ||| b.toNat <<< 8 ||| c.toNat = (a.toNat * 256 + b.toNat) * 256 + c.toNat := by
  have hb := b.toNat_lt
  have hc := c.toNat_lt
  have hab : a.toNat <<< 16 ||| b.toNat <<< 8 = (a.toNat * 256 + b.toNat) <<< 8 := by
    rw [← Nat.shiftLeft_add_eq_or_of_lt (by rw [Nat.shiftLeft_eq]; omega)]
    omega
  rw [hab, ← Nat.shiftLeft_add_eq_or_of_lt (by omega), Nat.shiftLeft_eq]

theorem ofNat_pack_octet₀ (w : Fin 64) :
    UInt8.ofNat ((((x * 64 + y) * 64 + z) * 64 + w : ℕ) >>> 16) = octet₀ x y := by
  congr 1
  omega

theorem ofNat_pack_octet₁ (w : Fin 64) :
    UInt8.ofNat ((((x * 64 + y) * 64 + z) * 64 + w : ℕ) >>> 8) = octet₁ y z := by
  rw [octet₁, ← UInt8.toNat_inj, UInt8.toNat_ofNat', UInt8.toNat_ofNat',
    Nat.shiftRight_eq_div_pow]
  omega

theorem ofNat_pack_octet₂ (w : Fin 64) :
    UInt8.ofNat (((x * 64 + y) * 64 + z) * 64 + w : ℕ) = octet₂ z w := by
  rw [octet₂, ← UInt8.toNat_inj, UInt8.toNat_ofNat', UInt8.toNat_ofNat']
  omega

theorem ofNat_or_octet₀ : UInt8.ofNat ((x : ℕ) <<< 2 ||| (y : ℕ) >>> 4) = octet₀ x y := by
  rw [octet₀, Nat.shiftRight_eq_div_pow, ← Nat.shiftLeft_add_eq_or_of_lt (by omega), Nat.shiftLeft_eq]

theorem ofNat_or_octet₁ : UInt8.ofNat (((y : ℕ) &&& 0xF) <<< 4 ||| (z : ℕ) >>> 2) = octet₁ y z := by
  rw [octet₁, show (0xF : ℕ) = 2 ^ 4 - 1 from rfl, Nat.and_two_pow_sub_one_eq_mod,
    Nat.shiftRight_eq_div_pow, ← Nat.shiftLeft_add_eq_or_of_lt (by omega), Nat.shiftLeft_eq]

theorem ofNat_or_octet₂ (w : Fin 64) :
    UInt8.ofNat (((z : ℕ) &&& 0x3) <<< 6 ||| (w : ℕ)) = octet₂ z w := by
  rw [octet₂, show (0x3 : ℕ) = 2 ^ 2 - 1 from rfl, Nat.and_two_pow_sub_one_eq_mod,
    ← Nat.shiftLeft_add_eq_or_of_lt (by omega), Nat.shiftLeft_eq]

theorem pack_and_sextet₀ (c : UInt8) :
    ((a.toNat * 256 + b.toNat) * 256 + c.toNat) >>> 18 &&& 0x3F = sextet₀ a := by
  have hb := b.toNat_lt
  have hc := c.toNat_lt
  rw [Nat.shiftRight_eq_div_pow, show (0x3F : ℕ) = 2 ^ 6 - 1 from rfl,
    Nat.and_two_pow_sub_one_eq_mod, sextet₀, Fin.val_ofNat]
  omega

theorem pack_and_sextet₁ (c : UInt8) :
    ((a.toNat * 256 + b.toNat) * 256 + c.toNat) >>> 12 &&& 0x3F = sextet₁ a b := by
  have hc := c.toNat_lt
  rw [Nat.shiftRight_eq_div_pow, show (0x3F : ℕ) = 2 ^ 6 - 1 from rfl,
    Nat.and_two_pow_sub_one_eq_mod, sextet₁, Fin.val_ofNat]
  omega

theorem pack_and_sextet₂ (c : UInt8) :
    ((a.toNat * 256 + b.toNat) * 256 + c.toNat) >>> 6 &&& 0x3F = sextet₂ b c := by
  have hb := b.toNat_lt
  have hc := c.toNat_lt
  rw [Nat.shiftRight_eq_div_pow, show (0x3F : ℕ) = 2 ^ 6 - 1 from rfl,
    Nat.and_two_pow_sub_one_eq_mod, sextet₂, Fin.val_ofNat]
  omega

theorem pack_and_sextet₃ (c : UInt8) :
    ((a.toNat * 256 + b.toNat) * 256 + c.toNat) >>> 0 &&& 0x3F = sextet₃ c := by
  rw [Nat.shiftRight_zero, show (0x3F : ℕ) = 2 ^ 6 - 1 from rfl,
    Nat.and_two_pow_sub_one_eq_mod, sextet₃, Fin.val_ofNat]
  omega

theorem and_spare₁ : (y : ℕ) &&& 0x0F = y % 16 :=
  Nat.and_two_pow_sub_one_eq_mod (y : ℕ) 4

theorem and_spare₂ : (z : ℕ) &&& 0x03 = z % 4 :=
  Nat.and_two_pow_sub_one_eq_mod (z : ℕ) 2

/-! ## Texts -/

/-- The letters that stand for sextets, no two for the same one. -/
structure Alphabet (α : Type) where
  letter : Fin 64 → α
  value : α → Option (Fin 64)
  value_letter : ∀ v, value (letter v) = some v
  letter_of_value : ∀ {c v}, value c = some v → letter v = c

/-- A way to write sextets down: blanks may stand anywhere, and padding fills the places of the
last quantum that no letter takes, all of them if `padsFully`. -/
structure Dialect (α : Type) extends Alphabet α where
  isBlank : α → Bool
  isPad : α → Bool
  padsFully : Bool
  value_of_isBlank : ∀ {c}, isBlank c = true → value c = none
  value_of_isPad : ∀ {c}, isPad c = true → value c = none
  not_isBlank_of_isPad : ∀ {c}, isPad c = true → isBlank c = false

/-- The places that `n` letters leave free in their last quantum. -/
def vacant (n : ℕ) : ℕ := (4 - n % 4) % 4

namespace Dialect

variable {α : Type} (D : Dialect α)

def marks (t : List α) : List α := t.filter fun c => !D.isBlank c

def isLetter (c : α) : Bool := (D.value c).isSome

def letters (sexts : List (Fin 64)) : List α := sexts.map D.letter

def padded (n : ℕ) (pads : List α) : Bool :=
  pads.all D.isPad &&
    if D.padsFully then pads.length == vacant n else decide (pads.length ≤ vacant n)

def content (s : List α) : Option (List UInt8) :=
  let body := s.takeWhile D.isLetter
  if D.padded body.length (s.dropWhile D.isLetter) then octets (body.filterMap D.value) else none

/-- The text `s`, which has no blanks, is a spelling of the bytes. -/
def Spells (s : List α) (bytes : List UInt8) : Prop :=
  ∃ pads, D.padded (sextets bytes).length pads = true ∧ s = D.letters (sextets bytes) ++ pads

def NoLetterHead (s : List α) : Prop := ∀ c ∈ s.head?, D.value c = none

/-! ### Blanks -/

@[simp] theorem marks_nil : D.marks [] = [] := rfl

theorem marks_append (s t : List α) : D.marks (s ++ t) = D.marks s ++ D.marks t :=
  List.filter_append s t

variable {c : α}

theorem marks_cons_of_isBlank (h : D.isBlank c = true) (t : List α) :
    D.marks (c :: t) = D.marks t := by
  simp [marks, h]

theorem marks_cons (h : D.isBlank c = false) (t : List α) : D.marks (c :: t) = c :: D.marks t := by
  simp [marks, h]

theorem length_marks_le (t : List α) : (D.marks t).length ≤ t.length := List.length_filter_le _ _

theorem marks_eq_nil {t : List α} : D.marks t = [] ↔ t.all D.isBlank = true := by
  simp [marks]

theorem not_isBlank_of_value {v : Fin 64} (h : D.value c = some v) :
    D.isBlank c = false := by grind [D.value_of_isBlank]

theorem not_isPad_of_value {v : Fin 64} (h : D.value c = some v) : D.isPad c = false := by
  grind [D.value_of_isPad]

variable (sexts : List (Fin 64))

theorem marks_letters : D.marks (D.letters sexts) = D.letters sexts := by
  apply List.filter_eq_self.mpr
  intro c hc
  obtain ⟨v, -, rfl⟩ := List.mem_map.mp hc
  rw [D.not_isBlank_of_value (D.value_letter v), Bool.not_false]

variable {pads : List α}

theorem marks_pads (h : pads.all D.isPad = true) : D.marks pads = pads := by
  apply List.filter_eq_self.mpr
  intro c hc
  rw [D.not_isBlank_of_isPad (List.all_eq_true.mp h c hc), Bool.not_false]

/-! ### Letters -/

@[simp] theorem letters_nil : D.letters [] = [] := rfl

@[simp] theorem length_letters : (D.letters sexts).length = sexts.length := List.length_map _

theorem letters_append (s t : List (Fin 64)) :
    D.letters (s ++ t) = D.letters s ++ D.letters t := List.map_append

theorem isLetter_letter (v : Fin 64) : D.isLetter (D.letter v) = true := by
  rw [isLetter, D.value_letter]
  rfl

theorem takeWhile_letters (s : List α) :
    (D.letters sexts ++ s).takeWhile D.isLetter = D.letters sexts ++ s.takeWhile D.isLetter := by
  apply List.takeWhile_append_of_pos
  intro c hc
  obtain ⟨v, -, rfl⟩ := List.mem_map.mp hc
  exact D.isLetter_letter v

theorem dropWhile_letters (s : List α) :
    (D.letters sexts ++ s).dropWhile D.isLetter = s.dropWhile D.isLetter := by
  apply List.dropWhile_append_of_pos
  intro c hc
  obtain ⟨v, -, rfl⟩ := List.mem_map.mp hc
  exact D.isLetter_letter v

theorem filterMap_letters : (D.letters sexts).filterMap D.value = sexts := by
  rw [letters, List.filterMap_map]
  induction sexts with
  | nil => rfl
  | cons v sexts ih => rw [List.filterMap_cons, Function.comp_apply, D.value_letter, ih]

theorem exists_letters (s : List α) :
    ∃ sexts rest, s = D.letters sexts ++ rest ∧ D.NoLetterHead rest := by
  refine ⟨(s.takeWhile D.isLetter).filterMap D.value, s.dropWhile D.isLetter, ?_, ?_⟩
  · conv_lhs => rw [← List.takeWhile_append_dropWhile (p := D.isLetter) (l := s)]
    congr 1
    have hall : ∀ c ∈ s.takeWhile D.isLetter, D.isLetter c = true := fun c hc =>
      List.mem_takeWhile_imp hc
    generalize s.takeWhile D.isLetter = body at hall
    induction body with
    | nil => rfl
    | cons c body ih =>
      obtain ⟨v, hv⟩ := Option.isSome_iff_exists.mp (hall c (by simp))
      rw [List.filterMap_cons, hv, letters, List.map_cons, D.letter_of_value hv]
      exact congrArg (c :: ·) (ih fun d hd => hall d (by simp [hd]))
  · intro c hc
    have hnot := List.head?_dropWhile_not D.isLetter s
    rw [hc] at hnot
    simpa [isLetter] using hnot

/-! ### Reading -/

theorem content_letters {rest : List α} (h : D.NoLetterHead rest) :
    D.content (D.letters sexts ++ rest) =
      if D.padded sexts.length rest then octets sexts else none := by
  have hbody : rest.takeWhile D.isLetter = [] := by
    cases rest with
    | nil => rfl
    | cons c rest => simp [isLetter, h c (by simp)]
  have htail : rest.dropWhile D.isLetter = rest := by
    cases rest with
    | nil => rfl
    | cons c rest => simp [isLetter, h c (by simp)]
  rw [content, D.takeWhile_letters, D.dropWhile_letters, hbody, htail, List.append_nil,
    D.length_letters, D.filterMap_letters]

theorem padded_nil (n : ℕ) : D.padded n [] = (!D.padsFully || vacant n == 0) := by
  cases hfull : D.padsFully <;> simp [padded, hfull, eq_comm]

@[simp] theorem content_nil : D.content [] = some [] := by
  have hhead : D.NoLetterHead [] := nofun
  have h := D.content_letters [] hhead
  rw [D.letters_nil, List.append_nil] at h
  rw [h, D.padded_nil, List.length_nil, if_pos (by simp [vacant])]
  rfl

theorem padded_add (n k : ℕ) (pads : List α) : D.padded (4 * k + n) pads = D.padded n pads := by
  grind [vacant, padded]

/-- Whole quanta in front of a text add their bytes to its content. -/
theorem content_append {q : List UInt8} (hq : q.length % 3 = 0) (s : List α) :
    D.content (D.letters (sextets q) ++ s) = (D.content s).map (q ++ ·) := by
  obtain ⟨sexts, rest, rfl, hrest⟩ := D.exists_letters s
  have hlength : (sextets q ++ sexts).length = 4 * (q.length / 3) + sexts.length := by
    rw [List.length_append, length_sextets]
    omega
  rw [← List.append_assoc, ← D.letters_append, D.content_letters _ hrest,
    D.content_letters _ hrest, hlength, D.padded_add, octets_append hq]
  split <;> rfl

variable {s : List α} {bytes : List UInt8}

theorem content_eq_some : D.content s = some bytes ↔ D.Spells s bytes := by
  constructor
  · intro h
    obtain ⟨sexts, rest, rfl, hrest⟩ := D.exists_letters s
    rw [D.content_letters _ hrest] at h
    split at h
    · rename_i hpadded
      obtain rfl := octets_eq_some.mp h
      exact ⟨rest, hpadded, rfl⟩
    · cases h
  · rintro ⟨pads, hpadded, rfl⟩
    have hpads : D.NoLetterHead pads := by
      intro c hc
      rw [padded, Bool.and_eq_true] at hpadded
      exact D.value_of_isPad (List.all_eq_true.mp hpadded.1 c (List.mem_of_mem_head? hc))
    rw [D.content_letters _ hpads, if_pos hpadded, octets_sextets]

theorem marks_of_spells (h : D.Spells s bytes) : D.marks s = s := by
  obtain ⟨pads, hpadded, rfl⟩ := h
  rw [padded, Bool.and_eq_true] at hpadded
  rw [D.marks_append, D.marks_letters, D.marks_pads hpadded.1]

theorem filter_of_spells (h : D.Spells s bytes) :
    s.filter (fun c => !D.isPad c) = D.letters (sextets bytes) := by
  obtain ⟨pads, hpadded, rfl⟩ := h
  rw [padded, Bool.and_eq_true] at hpadded
  have hletters : (D.letters (sextets bytes)).filter (fun c => !D.isPad c) =
      D.letters (sextets bytes) := by
    apply List.filter_eq_self.mpr
    intro c hc
    obtain ⟨v, -, rfl⟩ := List.mem_map.mp hc
    rw [D.not_isPad_of_value (D.value_letter v), Bool.not_false]
  have hpads : pads.filter (fun c => !D.isPad c) = [] := by
    apply List.filter_eq_nil_iff.mpr
    intro c hc
    rw [List.all_eq_true.mp hpadded.1 c hc, Bool.not_true]
    exact Bool.false_ne_true
  rw [List.filter_append, hletters, hpads, List.append_nil]

theorem length_le_of_spells (h : D.Spells s bytes) : bytes.length ≤ s.length * 3 / 4 := by
  obtain ⟨pads, -, rfl⟩ := h
  rw [List.length_append, D.length_letters, length_sextets]
  omega

theorem length_mod_of_spells (hfull : D.padsFully = true)
    (h : D.Spells s bytes) : s.length % 4 = 0 := by
  obtain ⟨pads, hpadded, rfl⟩ := h
  simp only [padded, hfull, if_true, Bool.and_eq_true, beq_iff_eq] at hpadded
  rw [List.length_append, D.length_letters, hpadded.2, vacant]
  omega

/-! ### Texts that cannot be read -/

theorem padded_of_mem (hc : c ∈ pads) (h : D.isPad c = false) (n : ℕ) :
    D.padded n pads = false := by grind [padded]

theorem padded_of_lt {n : ℕ} (h : vacant n < pads.length) :
    D.padded n pads = false := by grind [padded]

def capacity (n : ℕ) : ℕ := if D.padsFully then n / 4 * 3 else n * 3 / 4

theorem capacity_mono {m n : ℕ} (h : m ≤ n) : D.capacity m ≤ D.capacity n := by
  rw [capacity, capacity]
  split <;> omega

theorem length_le_capacity {t : List α}
    (h : D.content (D.marks t) = some bytes) : bytes.length ≤ D.capacity t.length := by
  have hspells := D.content_eq_some.mp h
  have hlength := D.length_le_of_spells hspells
  refine le_trans ?_ (D.capacity_mono (D.length_marks_le t))
  rw [capacity]
  split
  · have hmod := D.length_mod_of_spells ‹_› hspells
    omega
  · exact hlength

theorem content_sextets {q : List UInt8} (hq : q.length % 3 = 0) :
    D.content (D.letters (sextets q)) = some q := by
  have h := D.content_append hq []
  simpa using h

end Dialect

end Machine.Sextets
