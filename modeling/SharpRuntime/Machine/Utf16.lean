import SharpRuntime.Machine.Bytes

/-!
# UTF-16 and UTF-32

The code of a scalar in one word of 16 bits, or in two: a high and a low surrogate.  The code of a
scalar in one word of 32 bits.
-/

set_option autoImplicit false

namespace Machine

namespace Utf16

def IsHigh (u : UInt16) : Prop := 0xD800 ≤ u.toNat ∧ u.toNat < 0xDC00

def IsLow (u : UInt16) : Prop := 0xDC00 ≤ u.toNat ∧ u.toNat < 0xE000

instance (u : UInt16) : Decidable (IsHigh u) :=
  inferInstanceAs (Decidable (0xD800 ≤ u.toNat ∧ u.toNat < 0xDC00))

instance (u : UInt16) : Decidable (IsLow u) :=
  inferInstanceAs (Decidable (0xDC00 ≤ u.toNat ∧ u.toNat < 0xE000))

variable {u : UInt16}

theorem isHigh_iff : IsHigh u ↔ 0xD800 ≤ u.toNat ∧ u.toNat < 0xDC00 := Iff.rfl

theorem isLow_iff : IsLow u ↔ 0xDC00 ≤ u.toNat ∧ u.toNat < 0xE000 := Iff.rfl

theorem IsLow.not_isHigh (h : IsLow u) : ¬ IsHigh u := by
  rw [isHigh_iff]
  rw [isLow_iff] at h
  omega

def encode (c : ℕ) : List UInt16 :=
  if c < 0x10000 then [UInt16.ofNat c]
  else [UInt16.ofNat (0xD800 + (c - 0x10000) / 1024), UInt16.ofNat (0xDC00 + (c - 0x10000) % 1024)]

variable {c : ℕ}

theorem encode_one (h : c < 0x10000) : encode c = [UInt16.ofNat c] := if_pos h

theorem encode_two (h : 0x10000 ≤ c) : encode c = [UInt16.ofNat (0xD800 + (c - 0x10000) / 1024),
      UInt16.ofNat (0xDC00 + (c - 0x10000) % 1024)] := by
  rw [encode, if_neg (by omega)]

theorem length_encode (c : ℕ) : (encode c).length = if c < 0x10000 then 1 else 2 := by
  unfold encode
  split <;> rfl

variable {n : ℕ}

theorem toNat_ofNat (h : n < 2 ^ 16) : (UInt16.ofNat n).toNat = n := by
  rw [UInt16.toNat_ofNat', Nat.mod_eq_of_lt h]

theorem isHigh_ofNat (h : c < 0x110000) :
    IsHigh (UInt16.ofNat (0xD800 + (c - 0x10000) / 1024)) := by
  rw [isHigh_iff, toNat_ofNat (by omega)]
  omega

theorem isLow_ofNat (c : ℕ) : IsLow (UInt16.ofNat (0xDC00 + (c - 0x10000) % 1024)) := by
  rw [isLow_iff, toNat_ofNat (by omega)]
  omega

def pair (high low : UInt16) : ℕ := 0x10000 + (high.toNat - 0xD800) * 1024 + (low.toNat - 0xDC00)

variable {high low : UInt16}

theorem scalar_pair (hhigh : IsHigh high) (hlow : IsLow low) :
    Scalar (pair high low) ∧ 0x10000 ≤ pair high low := by
  rw [isHigh_iff] at hhigh
  rw [isLow_iff] at hlow
  rw [scalar_iff]
  unfold pair
  omega

theorem encode_pair (hhigh : IsHigh high) (hlow : IsLow low) :
    encode (pair high low) = [high, low] := by
  rw [encode_two (scalar_pair hhigh hlow).2]
  rw [isHigh_iff] at hhigh
  rw [isLow_iff] at hlow
  have hhighNat : 0xD800 + (pair high low - 0x10000) / 1024 = high.toNat := by
    unfold pair
    omega
  have hlowNat : 0xDC00 + (pair high low - 0x10000) % 1024 = low.toNat := by
    unfold pair
    omega
  rw [hhighNat, hlowNat, UInt16.ofNat_toNat, UInt16.ofNat_toNat]

/-- The scalar a sequence of words starts with, and how many words it takes. -/
def read? : List UInt16 → Option (ℕ × ℕ)
  | [] => none
  | u :: s =>
    if IsHigh u then s.head?.bind fun v => if IsLow v then some (pair u v, 2) else none
    else if IsLow u then none
    else some (u.toNat, 1)

theorem read?_encode (hc : Scalar c) (rest : List UInt16) :
    read? (encode c ++ rest) = some (c, (encode c).length) := by
  have hlt := hc.lt
  rw [scalar_iff] at hc
  by_cases h1 : c < 0x10000
  · have hhigh : ¬ IsHigh (UInt16.ofNat c) := by
      rw [isHigh_iff, toNat_ofNat (by omega)]
      omega
    have hlow : ¬ IsLow (UInt16.ofNat c) := by
      rw [isLow_iff, toNat_ofNat (by omega)]
      omega
    rw [encode_one h1, List.singleton_append, read?, if_neg hhigh, if_neg hlow,
      toNat_ofNat (by omega)]
    rfl
  · have hpair : pair (UInt16.ofNat (0xD800 + (c - 0x10000) / 1024))
        (UInt16.ofNat (0xDC00 + (c - 0x10000) % 1024)) = c := by
      unfold pair
      rw [toNat_ofNat (by omega), toNat_ofNat (by omega)]
      omega
    rw [encode_two (by omega), List.cons_append, List.singleton_append, read?,
      if_pos (isHigh_ofNat hlt), List.head?_cons, Option.bind_some, if_pos (isLow_ofNat c), hpair]
    rfl

theorem of_read? {s : List UInt16} (h : read? s = some (c, n)) :
    Scalar c ∧ n = (encode c).length ∧ ∃ rest, s = encode c ++ rest := by
  cases s with
  | nil => cases h
  | cons u s =>
    rw [read?] at h
    split at h
    case isTrue hhigh =>
      cases s with
      | nil => cases h
      | cons v s =>
        rw [List.head?_cons, Option.bind_some] at h
        split at h
        case isFalse => cases h
        case isTrue hlow =>
          obtain ⟨rfl, rfl⟩ := Prod.mk.inj (Option.some.inj h)
          rw [encode_pair hhigh hlow]
          exact ⟨(scalar_pair hhigh hlow).1, rfl, s, rfl⟩
    case isFalse hhigh =>
      split at h
      case isTrue => cases h
      case isFalse hlow =>
        cases h
        have hu := u.toNat_lt
        rw [isHigh_iff] at hhigh
        rw [isLow_iff] at hlow
        rw [encode_one hu, UInt16.ofNat_toNat]
        refine ⟨?_, rfl, s, rfl⟩
        rw [scalar_iff]
        omega

theorem length_encode_pos (c : ℕ) : 0 < (encode c).length := by
  rw [length_encode]
  split <;> decide

end Utf16

def utf16 : ScalarCode UInt16 where
  encode := Utf16.encode
  read? := Utf16.read?
  length_encode_pos := Utf16.length_encode_pos
  read?_encode := Utf16.read?_encode
  of_read? := Utf16.of_read?

namespace Utf16

theorem read?_cons (u : UInt16) (s : List UInt16) :
    utf16.read? (u :: s) =
      if IsHigh u then s.head?.bind fun v => if IsLow v then some (pair u v, 2) else none
      else if IsLow u then none
      else some (u.toNat, 1) := rfl

theorem synchronizes : utf16.Synchronizes := by
  intro us c rest hne hc hread
  obtain ⟨u, us, rfl⟩ := List.exists_cons_of_ne_nil hne
  rw [List.cons_append, read?_cons]
  rw [read?_cons] at hread
  split at hread
  case isTrue hhigh =>
    rw [if_pos hhigh]
    cases us with
    | cons v us => exact hread
    | nil =>
      -- the scalar does not start with a low surrogate
      have hscalar := utf16.read?_encode hc rest
      obtain ⟨v, vs, hvs⟩ := List.exists_cons_of_ne_nil (utf16.encode_ne_nil c)
      rw [hvs, List.cons_append, read?_cons] at hscalar
      have hlow : ¬ IsLow v := by
        intro hlow
        rw [if_neg hlow.not_isHigh, if_pos hlow] at hscalar
        cases hscalar
      rw [hvs, List.nil_append, List.cons_append, List.head?_cons, Option.bind_some, if_neg hlow]
  case isFalse hhigh => grind

end Utf16

def utf32 : ScalarCode UInt32 where
  encode c := [UInt32.ofNat c]
  read? s := s.head?.bind fun u => if Scalar u.toNat then some (u.toNat, 1) else none
  length_encode_pos _ := Nat.one_pos
  read?_encode := by
    intro c hc rest
    have hlt := hc.lt
    have htoNat : (UInt32.ofNat c).toNat = c := by
      rw [UInt32.toNat_ofNat', Nat.mod_eq_of_lt (by omega)]
    rw [List.singleton_append, List.head?_cons, Option.bind_some, htoNat, if_pos hc]
    rfl
  of_read? := by
    intro s c n h
    obtain ⟨u, hu, h⟩ := Option.bind_eq_some_iff.mp h
    split at h
    case isFalse => cases h
    case isTrue hscalar =>
      obtain ⟨rfl, rfl⟩ := Prod.mk.inj (Option.some.inj h)
      obtain ⟨t, rfl⟩ := List.head?_eq_some_iff.mp hu
      rw [UInt32.ofNat_toNat]
      exact ⟨hscalar, rfl, t, rfl⟩

namespace Utf32

theorem read?_cons (u : UInt32) (s : List UInt32) :
    utf32.read? (u :: s) = if Scalar u.toNat then some (u.toNat, 1) else none := rfl

theorem synchronizes : utf32.Synchronizes := by
  intro us c rest hne hc hread
  obtain ⟨u, us, rfl⟩ := List.exists_cons_of_ne_nil hne
  exact hread

end Utf32

end Machine
