import SharpRuntime.Machine.Bytes

/-!
# UTF-8

The code of a scalar in one to four bytes, and the sequences of bytes RFC 3629 admits: they are
the encodings of scalars.
-/

set_option autoImplicit false
set_option maxRecDepth 20000

namespace Machine

namespace Utf8

def tailOf (c : ℕ) : UInt8 := UInt8.ofNat (0x80 + c % 64)

def encode (c : ℕ) : List UInt8 :=
  if c < 0x80 then [UInt8.ofNat c]
  else if c < 0x800 then [UInt8.ofNat (0xC0 + c / 64), tailOf c]
  else if c < 0x10000 then [UInt8.ofNat (0xE0 + c / 4096), tailOf (c / 64), tailOf c]
  else [UInt8.ofNat (0xF0 + c / 262144), tailOf (c / 4096), tailOf (c / 64), tailOf c]

variable {c : ℕ}

theorem encode_one (h : c < 0x80) : encode c = [UInt8.ofNat c] := if_pos h

theorem encode_two (hlo : 0x80 ≤ c) (h : c < 0x800) :
    encode c = [UInt8.ofNat (0xC0 + c / 64), tailOf c] := by
  rw [encode, if_neg (by omega), if_pos h]

theorem encode_three (hlo : 0x800 ≤ c) (h : c < 0x10000) :
    encode c = [UInt8.ofNat (0xE0 + c / 4096), tailOf (c / 64), tailOf c] := by
  rw [encode, if_neg (by omega), if_neg (by omega), if_pos h]

theorem encode_four (hlo : 0x10000 ≤ c) : encode c =
      [UInt8.ofNat (0xF0 + c / 262144), tailOf (c / 4096), tailOf (c / 64), tailOf c] := by
  rw [encode, if_neg (by omega), if_neg (by omega), if_neg (by omega)]

theorem length_encode (c : ℕ) :
    (encode c).length = if c < 0x80 then 1 else if c < 0x800 then 2 else if c < 0x10000 then 3
      else 4 := by
  unfold encode
  split
  · rfl
  · split
    · rfl
    · split <;> rfl

theorem length_encode_pos (c : ℕ) : 0 < (encode c).length := by
  rw [length_encode]
  split_ifs <;> decide

def IsTail (b : UInt8) : Prop := 0x80 ≤ b.toNat ∧ b.toNat < 0xC0

instance (b : UInt8) : Decidable (IsTail b) :=
  inferInstanceAs (Decidable (0x80 ≤ b.toNat ∧ b.toNat < 0xC0))

variable {b : UInt8}

theorem isTail_iff : IsTail b ↔ 0x80 ≤ b.toNat ∧ b.toNat < 0xC0 := Iff.rfl

theorem toNat_tailOf (c : ℕ) : (tailOf c).toNat = 0x80 + c % 64 := by
  rw [tailOf, UInt8.toNat_ofNat', Nat.mod_eq_of_lt (by omega)]

theorem isTail_tailOf (c : ℕ) : IsTail (tailOf c) := by
  rw [isTail_iff, toNat_tailOf]
  omega

theorem isTail_mask (b : UInt8) :
    (IsTail b ↔ b &&& 0xC0 = 0x80) ∧ (b &&& 0x3F).toNat = b.toNat % 64 := by
  revert b
  decide

theorem tailOf_eq (h : IsTail b) (hc : c % 64 = b.toNat % 64) : tailOf c = b := by
  rw [isTail_iff] at h
  rw [← UInt8.toNat_inj, toNat_tailOf]
  omega

/-- What the first byte of a sequence announces: how many bytes come after it, the bits it holds
itself, and the least number that takes so many bytes. -/
structure Lead where
  tails : ℕ
  payload : ℕ
  minimum : ℕ

def lead? (b : UInt8) : Option Lead :=
  if b.toNat < 0x80 then some ⟨0, b.toNat, 0⟩
  else if b.toNat < 0xC0 then none
  else if b.toNat < 0xE0 then some ⟨1, b.toNat - 0xC0, 0x80⟩
  else if b.toNat < 0xF0 then some ⟨2, b.toNat - 0xE0, 0x800⟩
  else if b.toNat < 0xF8 then some ⟨3, b.toNat - 0xF0, 0x10000⟩
  else none

/-- Put the bits of the next `n` bytes below those read so far. -/
def tails? : (n acc : ℕ) → List UInt8 → Option ℕ
  | 0, acc, _ => some acc
  | _ + 1, _, [] => none
  | n + 1, acc, b :: s => if IsTail b then tails? n (acc * 64 + b.toNat % 64) s else none

/-- The scalar a sequence of bytes starts with, and how many bytes it takes. -/
def read? : List UInt8 → Option (ℕ × ℕ)
  | [] => none
  | b :: s =>
    (lead? b).bind fun lead =>
      (tails? lead.tails lead.payload s).bind fun c =>
        if lead.minimum ≤ c ∧ Scalar c then some (c, lead.tails + 1) else none

theorem tails?_tailOf (n acc c : ℕ) (s : List UInt8) :
    tails? (n + 1) acc (tailOf c :: s) = tails? n (acc * 64 + c % 64) s := by
  have hbits : (tailOf c).toNat % 64 = c % 64 := by
    rw [toNat_tailOf]
    omega
  rw [tails?, if_pos (isTail_tailOf c), hbits]

variable {n acc : ℕ} {s : List UInt8}

theorem exists_of_tails? (h : tails? (n + 1) acc s = some c) :
    ∃ b rest, s = b :: rest ∧ IsTail b ∧ tails? n (acc * 64 + b.toNat % 64) rest = some c := by
  cases s with
  | nil => cases h
  | cons b rest =>
    rw [tails?] at h
    split at h
    case isTrue hb => exact ⟨b, rest, rfl, hb, h⟩
    case isFalse => cases h

theorem le_length_of_tails? (h : tails? n acc s = some c) : n ≤ s.length := by
  induction n generalizing acc s with
  | zero => exact Nat.zero_le _
  | succ n ih =>
    obtain ⟨b, rest, rfl, -, h⟩ := exists_of_tails? h
    exact Nat.succ_le_succ (ih h)

theorem le_of_tails? (h : tails? n acc s = some c) : acc * 64 ^ n ≤ c ∧ c < (acc + 1) * 64 ^ n := by
  induction n generalizing acc s with
  | zero =>
    cases h
    omega
  | succ n ih =>
    obtain ⟨b, rest, rfl, -, h⟩ := exists_of_tails? h
    obtain ⟨hlow, hhigh⟩ := ih h
    have hpow : 64 ^ (n + 1) = 64 * 64 ^ n := Nat.pow_succ'
    have hle : acc * 64 * 64 ^ n ≤ (acc * 64 + b.toNat % 64) * 64 ^ n :=
      Nat.mul_le_mul_right _ (by omega)
    have hlt : (acc * 64 + b.toNat % 64 + 1) * 64 ^ n ≤ (acc + 1) * 64 * 64 ^ n :=
      Nat.mul_le_mul_right _ (by omega)
    rw [hpow, ← Nat.mul_assoc, ← Nat.mul_assoc]
    exact ⟨hle.trans hlow, hhigh.trans_le hlt⟩

theorem read?_encode (hc : Scalar c) (rest : List UInt8) :
    read? (encode c ++ rest) = some (c, (encode c).length) := by
  have hlt := hc.lt
  have hbyte : ∀ {n : ℕ}, n < 256 → (UInt8.ofNat n).toNat = n := fun h => by
    rw [UInt8.toNat_ofNat', Nat.mod_eq_of_lt h]
  by_cases h1 : c < 0x80
  · have hlead : lead? (UInt8.ofNat c) = some ⟨0, c, 0⟩ := by
      rw [lead?, hbyte (by omega), if_pos h1]
    rw [encode_one h1, List.singleton_append, read?, hlead, Option.bind_some, tails?,
      Option.bind_some, if_pos ⟨Nat.zero_le c, hc⟩]
    rfl
  · by_cases h2 : c < 0x800
    · have hlead : lead? (UInt8.ofNat (0xC0 + c / 64)) = some ⟨1, c / 64, 0x80⟩ := by
        rw [lead?, hbyte (by omega), if_neg (by omega), if_neg (by omega), if_pos (by omega),
          Nat.add_sub_cancel_left]
      have hvalue : c / 64 * 64 + c % 64 = c := by omega
      rw [encode_two (by omega) h2, List.cons_append, List.singleton_append, read?, hlead,
        Option.bind_some, tails?_tailOf, tails?, Option.bind_some, hvalue,
        if_pos ⟨show 0x80 ≤ c by omega, hc⟩]
      rfl
    · by_cases h3 : c < 0x10000
      · have hlead : lead? (UInt8.ofNat (0xE0 + c / 4096)) = some ⟨2, c / 4096, 0x800⟩ := by
          rw [lead?, hbyte (by omega), if_neg (by omega), if_neg (by omega), if_neg (by omega),
            if_pos (by omega), Nat.add_sub_cancel_left]
        have hvalue : (c / 4096 * 64 + c / 64 % 64) * 64 + c % 64 = c := by omega
        rw [encode_three (by omega) h3, List.cons_append, List.cons_append, List.singleton_append,
          read?, hlead, Option.bind_some, tails?_tailOf, tails?_tailOf, tails?, Option.bind_some,
          hvalue, if_pos ⟨show 0x800 ≤ c by omega, hc⟩]
        rfl
      · have hlead : lead? (UInt8.ofNat (0xF0 + c / 262144)) = some ⟨3, c / 262144, 0x10000⟩ := by
          rw [lead?, hbyte (by omega), if_neg (by omega), if_neg (by omega), if_neg (by omega),
            if_neg (by omega), if_pos (by omega), Nat.add_sub_cancel_left]
        have hvalue :
            ((c / 262144 * 64 + c / 4096 % 64) * 64 + c / 64 % 64) * 64 + c % 64 = c := by
          omega
        rw [encode_four (by omega), List.cons_append, List.cons_append, List.cons_append,
          List.singleton_append, read?, hlead, Option.bind_some, tails?_tailOf, tails?_tailOf,
          tails?_tailOf, tails?, Option.bind_some, hvalue,
          if_pos ⟨show 0x10000 ≤ c by omega, hc⟩]
        rfl

theorem of_read? (h : read? s = some (c, n)) :
    Scalar c ∧ n = (encode c).length ∧ ∃ rest, s = encode c ++ rest := by
  cases s with
  | nil => cases h
  | cons b s =>
    rw [read?, Option.bind_eq_some_iff] at h
    obtain ⟨lead, hlead, h⟩ := h
    obtain ⟨c', htails, h⟩ := Option.bind_eq_some_iff.mp h
    split at h
    case isFalse => cases h
    case isTrue hmin =>
      obtain ⟨hmin, hc⟩ := hmin
      cases h
      refine ⟨hc, ?_⟩
      have hbyte : ∀ {n : ℕ}, n = b.toNat → UInt8.ofNat n = b := fun h => by
        rw [h, UInt8.ofNat_toNat]
      rw [lead?] at hlead
      split at hlead
      case isTrue h1 =>
        cases hlead
        cases htails
        rw [encode_one h1, hbyte rfl]
        exact ⟨rfl, s, rfl⟩
      case isFalse h1 =>
        split at hlead
        case isTrue => cases hlead
        case isFalse h2 =>
          split at hlead
          case isTrue h3 =>
            cases hlead
            obtain ⟨x, rest, rfl, hx, htails⟩ := exists_of_tails? htails
            cases htails
            dsimp only at hmin hc ⊢
            rw [encode_two hmin (by omega), hbyte (by omega), tailOf_eq hx (by omega)]
            exact ⟨rfl, rest, rfl⟩
          case isFalse h3 =>
            split at hlead
            case isTrue h4 =>
              cases hlead
              obtain ⟨x, rest, rfl, hx, htails⟩ := exists_of_tails? htails
              obtain ⟨y, rest, rfl, hy, htails⟩ := exists_of_tails? htails
              cases htails
              dsimp only at hmin hc ⊢
              rw [encode_three hmin (by omega), hbyte (by omega), tailOf_eq hx (by omega),
                tailOf_eq hy (by omega)]
              exact ⟨rfl, rest, rfl⟩
            case isFalse h4 =>
              split at hlead
              case isFalse => cases hlead
              case isTrue h5 =>
                cases hlead
                obtain ⟨x, rest, rfl, hx, htails⟩ := exists_of_tails? htails
                obtain ⟨y, rest, rfl, hy, htails⟩ := exists_of_tails? htails
                obtain ⟨z, rest, rfl, hz, htails⟩ := exists_of_tails? htails
                cases htails
                dsimp only at hmin hc ⊢
                rw [encode_four hmin, hbyte (by omega), tailOf_eq hx (by omega),
                  tailOf_eq hy (by omega), tailOf_eq hz (by omega)]
                exact ⟨rfl, rest, rfl⟩

end Utf8

def utf8 : ScalarCode UInt8 where
  encode := Utf8.encode
  read? := Utf8.read?
  length_encode_pos := Utf8.length_encode_pos
  read?_encode := Utf8.read?_encode
  of_read? := Utf8.of_read?

namespace Utf8

theorem read?_cons (b : UInt8) (s : List UInt8) :
    utf8.read? (b :: s) = (lead? b).bind fun lead =>
      (tails? lead.tails lead.payload s).bind fun c =>
        if lead.minimum ≤ c ∧ Scalar c then some (c, lead.tails + 1) else none := rfl

def Within (low high : ℕ) (b : UInt8) : Prop := low ≤ b.toNat ∧ b.toNat ≤ high

/-- The table of RFC 3629, section 4: one constructor for each alternative. -/
inductive Admitted : List UInt8 → Prop where
  | one {a : UInt8} : Within 0x00 0x7F a → Admitted [a]
  | two {a b : UInt8} : Within 0xC2 0xDF a → IsTail b → Admitted [a, b]
  | threeLow {a b c : UInt8} : Within 0xE0 0xE0 a → Within 0xA0 0xBF b → IsTail c →
      Admitted [a, b, c]
  | three {a b c : UInt8} : Within 0xE1 0xEC a → IsTail b → IsTail c → Admitted [a, b, c]
  | threeSurrogate {a b c : UInt8} : Within 0xED 0xED a → Within 0x80 0x9F b → IsTail c →
      Admitted [a, b, c]
  | threeHigh {a b c : UInt8} : Within 0xEE 0xEF a → IsTail b → IsTail c → Admitted [a, b, c]
  | fourLow {a b c d : UInt8} : Within 0xF0 0xF0 a → Within 0x90 0xBF b → IsTail c → IsTail d →
      Admitted [a, b, c, d]
  | four {a b c d : UInt8} : Within 0xF1 0xF3 a → IsTail b → IsTail c → IsTail d →
      Admitted [a, b, c, d]
  | fourHigh {a b c d : UInt8} : Within 0xF4 0xF4 a → Within 0x80 0x8F b → IsTail c → IsTail d →
      Admitted [a, b, c, d]

variable {low high n : ℕ}

theorem within_ofNat (hn : n < 256) (hlow : low ≤ n) (hhigh : n ≤ high) :
    Within low high (UInt8.ofNat n) := by
  rw [Within, UInt8.toNat_ofNat', Nat.mod_eq_of_lt hn]
  exact ⟨hlow, hhigh⟩

variable {c : ℕ}

theorem within_tailOf (hlow : low ≤ 0x80 + c % 64) (hhigh : 0x80 + c % 64 ≤ high) :
    Within low high (tailOf c) :=
  within_ofNat (by omega) hlow hhigh

theorem admitted_encode (hc : Scalar c) : Admitted (encode c) := by
  rw [scalar_iff] at hc
  by_cases h1 : c < 0x80
  · rw [encode_one h1]
    exact .one (within_ofNat (by omega) (by omega) (by omega))
  · by_cases h2 : c < 0x800
    · rw [encode_two (by omega) h2]
      exact .two (within_ofNat (by omega) (by omega) (by omega)) (isTail_tailOf _)
    · by_cases h3 : c < 0x10000
      · have hlead : ∀ {low high : ℕ}, low ≤ 0xE0 + c / 4096 → 0xE0 + c / 4096 ≤ high →
            Within low high (UInt8.ofNat (0xE0 + c / 4096)) := within_ofNat (by omega)
        rw [encode_three (by omega) h3]
        by_cases hlow : c < 0x1000
        · exact .threeLow (hlead (by omega) (by omega)) (within_tailOf (by omega) (by omega))
            (isTail_tailOf _)
        · by_cases hmid : c < 0xD000
          · exact .three (hlead (by omega) (by omega)) (isTail_tailOf _) (isTail_tailOf _)
          · by_cases hsurrogate : c < 0xD800
            · exact .threeSurrogate (hlead (by omega) (by omega))
                (within_tailOf (by omega) (by omega)) (isTail_tailOf _)
            · exact .threeHigh (hlead (by omega) (by omega)) (isTail_tailOf _) (isTail_tailOf _)
      · have hlead : ∀ {low high : ℕ}, low ≤ 0xF0 + c / 262144 → 0xF0 + c / 262144 ≤ high →
            Within low high (UInt8.ofNat (0xF0 + c / 262144)) := within_ofNat (by omega)
        rw [encode_four (by omega)]
        by_cases hlow : c < 0x40000
        · exact .fourLow (hlead (by omega) (by omega)) (within_tailOf (by omega) (by omega))
            (isTail_tailOf _) (isTail_tailOf _)
        · by_cases hmid : c < 0x100000
          · exact .four (hlead (by omega) (by omega)) (isTail_tailOf _) (isTail_tailOf _)
              (isTail_tailOf _)
          · exact .fourHigh (hlead (by omega) (by omega)) (within_tailOf (by omega) (by omega))
              (isTail_tailOf _) (isTail_tailOf _)

section Rows

variable {a b c d : UInt8}

theorem encode_of_two (ha : Within 0xC2 0xDF a) (hb : IsTail b) :
    ∃ n, Scalar n ∧ [a, b] = encode n := by
  obtain ⟨hlow, hhigh⟩ := ha
  refine ⟨(a.toNat - 0xC0) * 64 + b.toNat % 64, Or.inl (by omega), ?_⟩
  rw [encode_two (by omega) (by omega), tailOf_eq hb (by omega)]
  congr 1
  rw [← UInt8.toNat_inj, UInt8.toNat_ofNat', Nat.mod_eq_of_lt (by omega)]
  omega

theorem encode_of_three (ha : Within 0xE0 0xEF a) (hb : IsTail b) (hc : IsTail c)
    (hmin : 0x800 ≤ (a.toNat - 0xE0) * 4096 + b.toNat % 64 * 64 + c.toNat % 64)
    (hscalar : Scalar ((a.toNat - 0xE0) * 4096 + b.toNat % 64 * 64 + c.toNat % 64)) :
    ∃ n, Scalar n ∧ [a, b, c] = encode n := by
  obtain ⟨hlow, hhigh⟩ := ha
  refine ⟨_, hscalar, ?_⟩
  rw [encode_three hmin (by omega), tailOf_eq hb (by omega), tailOf_eq hc (by omega)]
  congr 1
  rw [← UInt8.toNat_inj, UInt8.toNat_ofNat', Nat.mod_eq_of_lt (by omega)]
  omega

theorem encode_of_four (ha : Within 0xF0 0xF4 a) (hb : IsTail b) (hc : IsTail c) (hd : IsTail d)
    (hmin : 0x10000 ≤ (a.toNat - 0xF0) * 262144 + b.toNat % 64 * 4096)
    (hmax : (a.toNat - 0xF0) * 262144 + b.toNat % 64 * 4096 < 0x110000) :
    ∃ n, Scalar n ∧ [a, b, c, d] = encode n := by
  obtain ⟨hlow, hhigh⟩ := ha
  obtain ⟨n, hn⟩ : ∃ n, n = (a.toNat - 0xF0) * 262144 + b.toNat % 64 * 4096 +
      c.toNat % 64 * 64 + d.toNat % 64 := ⟨_, rfl⟩
  have hscalar : Scalar n := by
    rw [scalar_iff]
    omega
  refine ⟨n, hscalar, ?_⟩
  rw [encode_four (by omega), tailOf_eq hb (by omega), tailOf_eq hc (by omega),
    tailOf_eq hd (by omega)]
  congr 1
  rw [← UInt8.toNat_inj, UInt8.toNat_ofNat', Nat.mod_eq_of_lt (by omega)]
  omega

end Rows

variable {s : List UInt8}

/-- **The table is the encoding**: a sequence of bytes is admitted when it is the encoding of a
scalar. -/
theorem admitted_iff : Admitted s ↔ ∃ c, Scalar c ∧ s = utf8.encode c := by
  constructor
  · intro h
    cases h with
    | @one a ha =>
      obtain ⟨-, ha⟩ := ha
      refine ⟨a.toNat, Or.inl (by omega), ?_⟩
      have hencode := encode_one (c := a.toNat) (by omega)
      rw [UInt8.ofNat_toNat] at hencode
      exact hencode.symm
    | two ha hb => exact encode_of_two ha hb
    | threeLow ha hb hc =>
      obtain ⟨ha, ha'⟩ := ha
      obtain ⟨hb, hb'⟩ := hb
      exact encode_of_three ⟨ha, by omega⟩ ⟨by omega, by omega⟩ hc (by omega) (Or.inl (by omega))
    | three ha hb hc =>
      obtain ⟨ha, ha'⟩ := ha
      exact encode_of_three ⟨by omega, by omega⟩ hb hc (by omega) (Or.inl (by omega))
    | threeSurrogate ha hb hc =>
      obtain ⟨ha, ha'⟩ := ha
      obtain ⟨hb, hb'⟩ := hb
      exact encode_of_three ⟨by omega, by omega⟩ ⟨by omega, by omega⟩ hc (by omega)
        (Or.inl (by omega))
    | threeHigh ha hb hc =>
      obtain ⟨ha, ha'⟩ := ha
      exact encode_of_three ⟨by omega, by omega⟩ hb hc (by omega) (Or.inr ⟨by omega, by omega⟩)
    | fourLow ha hb hc hd =>
      obtain ⟨ha, ha'⟩ := ha
      obtain ⟨hb, hb'⟩ := hb
      exact encode_of_four ⟨ha, by omega⟩ ⟨by omega, by omega⟩ hc hd (by omega) (by omega)
    | four ha hb hc hd =>
      obtain ⟨ha, ha'⟩ := ha
      exact encode_of_four ⟨by omega, by omega⟩ hb hc hd (by omega) (by omega)
    | fourHigh ha hb hc hd =>
      obtain ⟨ha, ha'⟩ := ha
      obtain ⟨hb, hb'⟩ := hb
      exact encode_of_four ⟨by omega, by omega⟩ ⟨by omega, by omega⟩ hc hd (by omega) (by omega)
  · rintro ⟨c, hc, rfl⟩
    exact admitted_encode hc

theorem admitted_of_read? (h : utf8.read? s = some (c, n)) : Admitted (s.take n) := by
  obtain ⟨hc, rfl, rest, rfl⟩ := of_read? h
  rw [List.take_left]
  exact admitted_encode hc

end Utf8

end Machine
