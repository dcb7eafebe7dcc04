import SharpRuntime.Machine.Bytes
import SharpRuntime.Interface.NumberGrammar

/-!
# Integers as UTF-8 text

Each scanner of `Utf8Parser` reads the digits a text begins with, and accumulates their value unless
that leaves the range (`scanUInt_sound`, `scanHex_sound`, `integralDigits_sound`); on the digits
that `Utf8Formatter` writes it reads all of them.  What `tryParse` accepts therefore has the value
returned, and what `tryFormat` writes is read back (`utf8_integers`).
-/

set_option autoImplicit false
set_option maxRecDepth 20000

namespace SharpRuntime.Analysis.Utf8IntegerText

open Machine Model Interface
open Model.Utf8Formatter Model.Utf8Parser
open Interface.IntegerNotation
open Machine.Printed (accumulate value padded numeral)
open IntegerType

/-! ## Digits -/

variable {c : UInt8}

theorem decimalDigit?_of_isDigit (h : isDigit c = true) :
    decimalDigit? c = some (c.toNat - '0'.toNat) := by
  revert c
  decide

theorem isDigit_iff : isDigit c = true ↔ 48 ≤ c.toNat ∧ c.toNat ≤ 57 := by
  rw [isDigit, decide_eq_true_eq, UInt8.le_iff_toNat_le, UInt8.le_iff_toNat_le]
  exact Iff.rfl

theorem toNat_sub_lt (h : isDigit c = true) : c.toNat - '0'.toNat < 10 := by
  rw [isDigit_iff] at h
  change c.toNat - 48 < 10
  omega

theorem hexDigit?_eq_hexVal (c : UInt8) : hexDigit? c = hexVal c := by
  revert c
  decide

variable {d : ℕ}

theorem hexVal_lt (h : hexVal c = some d) : d < 16 := by
  have hall : ∀ c, (hexVal c).all (· < 16) := by decide
  simpa [h] using hall c

theorem isDigit_decimalDigit (h : d < 10) : isDigit (decimalDigit d) = true := by
  revert d
  decide

theorem toNat_decimalDigit (h : d < 10) : (decimalDigit d).toNat - '0'.toNat = d := by
  revert d
  decide

variable (uppercase : Bool)

theorem hexVal_hexDigits {d : ℕ} (h : d < 16) :
    hexVal ((hexDigits uppercase).getD d 0) = some d := by
  revert uppercase d
  decide

variable {v : ℕ}

theorem overflow_iff (hd : d < 10) : v > (uint64Max - d) / 10 ↔ uint64Max < v * 10 + d := by
  unfold uint64Max
  omega

variable {k : ℕ}

theorem hexOverflow_iff (hd : d < 16) :
    v > (16 ^ (k + 1) - 1) >>> 4 ↔ 16 ^ (k + 1) - 1 < v * 16 + d := by
  have hpos : 0 < 16 ^ k := Nat.pow_pos (by decide)
  omega

theorem value_le_accumulate {b : ℕ} (hb : 1 ≤ b) (v d : ℕ) (ds : List ℕ) :
    v * b + d ≤ accumulate b v (d :: ds) := Printed.le_accumulate hb _ ds

/-! ## Decimal digits -/

variable {ds : List ℕ}

theorem scanUInt_digits (hds : ∀ d ∈ ds, d < 10) (n : ℕ) (hv : accumulate 10 v ds ≤ uint64Max) :
    scanUInt v n (ds.map decimalDigit) = some (accumulate 10 v ds, n + ds.length) := by
  induction ds generalizing v n with
  | nil => rfl
  | cons d ds ih =>
    grind [scanUInt, isDigit_decimalDigit, toNat_decimalDigit, Printed.accumulate_cons, value_le_accumulate]

theorem tryParseUInt_digits (hds : ∀ d ∈ ds, d < 10) (hne : ds ≠ [])
    (hv : value 10 ds ≤ uint64Max) :
    tryParseUInt (ds.map decimalDigit) = some (value 10 ds, ds.length) := by
  obtain ⟨d, rest, rfl⟩ := List.exists_cons_of_ne_nil hne
  have hd : d < 10 := hds d List.mem_cons_self
  have hscan := scanUInt_digits hds 0 hv
  rw [List.map_cons] at hscan ⊢
  rw [tryParseUInt, if_pos (isDigit_decimalDigit hd), hscan, Nat.zero_add]
  rfl

variable {src : List UInt8} {n w m : ℕ}

/-- What is read is the value of the digits passed, within 64 bits. -/
theorem scanUInt_sound (h : scanUInt v n src = some (w, m)) (hv : v ≤ uint64Max) :
    w ≤ uint64Max ∧ ∃ ds : List ℕ, m = n + ds.length ∧ ds.length ≤ src.length ∧
      Spelled decimalDigit? (src.take ds.length) ds ∧ w = accumulate 10 v ds := by
  induction src generalizing v n with
  | nil =>
    cases h
    exact ⟨hv, [], rfl, le_refl _, rfl, rfl⟩
  | cons c src ih =>
    rw [scanUInt] at h
    split at h
    case isTrue hc =>
      have hd := toNat_sub_lt hc
      dsimp only at h
      split at h
      case isTrue hover => cases h
      case isFalse hfits =>
        rw [overflow_iff hd] at hfits
        obtain ⟨hw, ds, hm, hlen, hspelled, heq⟩ := ih h (by omega)
        refine ⟨hw, (c.toNat - '0'.toNat) :: ds, ?_, ?_, ?_, heq⟩
        · rw [hm, List.length_cons, Nat.add_assoc, Nat.add_comm 1]
        · rw [List.length_cons, List.length_cons]
          omega
        · rw [Spelled, List.length_cons, List.take_succ_cons, List.map_cons, List.map_cons,
            decimalDigit?_of_isDigit hc, hspelled]
    case isFalse hc =>
      cases h
      exact ⟨hv, [], rfl, Nat.zero_le _, rfl, rfl⟩

theorem tryParseUInt_sound (h : tryParseUInt src = some (w, m)) :
    w ≤ uint64Max ∧ m ≤ src.length ∧ Body decimal (src.take m) w := by
  cases src with
  | nil => cases h
  | cons c src =>
    rw [tryParseUInt] at h
    split at h
    case isTrue hc =>
      -- the first digit is read, so there is one
      have hd := toNat_sub_lt hc
      have hfits : ¬ 0 > (uint64Max - (c.toNat - '0'.toNat)) / 10 := Nat.not_lt_zero _
      rw [scanUInt, if_pos hc, if_neg hfits] at h
      obtain ⟨hw, ds, hm, hlen, hspelled, heq⟩ := scanUInt_sound h (by unfold uint64Max; omega)
      obtain rfl : m = ds.length + 1 := by omega
      refine ⟨hw, by rw [List.length_cons]; omega, (c.toNat - '0'.toNat) :: ds,
        List.cons_ne_nil _ _, ?_, heq⟩
      rw [Spelled, List.take_succ_cons, List.map_cons, List.map_cons, decimalDigit?_of_isDigit hc,
        hspelled]
    case isFalse hc => cases h

/-! ## Signs -/

theorem withSign_eq (neg : Bool) (v : ℕ) :
    withSign neg v = if int64.Contains (if neg then -v else v) then
      some (if neg then -(v : ℤ) else v) else none := by
  have hcontains : ∀ n : ℤ, int64.Contains n ↔ -2 ^ 63 ≤ n ∧ n < 2 ^ 63 :=
    fun n => Iff.rfl
  have hmax : int64Max = 2 ^ 63 - 1 := rfl
  cases neg with
  | true =>
    simp only [withSign, if_true, hcontains]
    by_cases hover : v > int64Max + 1
    · rw [if_pos hover, if_neg (by omega)]
    · have hwrap : ((wrap 64 (-v) : ℕ) : ℤ).bmod (2 ^ 64) = -v := by
        rw [wrap, Int.toNat_of_nonneg (Int.emod_nonneg _ (by decide))]
        rw [show ((2 : ℤ) ^ 64) = ((2 ^ 64 : ℕ) : ℤ) from rfl, Int.emod_bmod]
        exact Int.bmod_eq_of_le (by omega) (by omega)
      rw [if_neg hover, if_pos (by omega), hwrap]
  | false =>
    simp only [withSign, Bool.false_eq_true, if_false, hcontains]
    by_cases hover : v > int64Max
    · rw [if_pos hover, if_neg (by omega)]
    · rw [if_neg hover, if_pos (by omega)]

variable {neg : Bool}

theorem withSign_eq_some {w : ℤ} : withSign neg v = some w ↔
      w = (if neg then -1 else 1) * v ∧ int64.Contains w := by
  grind [withSign_eq]

theorem exists_sign (src : List UInt8) (allowMinus : Bool) :
    ∃ sign ∈ grouped.signs allowMinus,
      src = sign.1 ++ src.drop (if (allowMinus ∧ src.head? = some '-'.toUInt8) ∨
        src.head? = some '+'.toUInt8 then 1 else 0) ∧
      sign.1.length = (if (allowMinus ∧ src.head? = some '-'.toUInt8) ∨
        src.head? = some '+'.toUInt8 then 1 else 0) ∧
      sign.2 = if allowMinus ∧ src.head? = some '-'.toUInt8 then -1 else 1 := by
  by_cases hneg : allowMinus ∧ src.head? = some '-'.toUInt8
  · obtain ⟨rfl, hhead⟩ := hneg
    obtain ⟨rest, rfl⟩ := List.head?_eq_some_iff.mp hhead
    exact ⟨(['-'.toUInt8], -1), by decide, rfl, rfl, rfl⟩
  · simp only [hneg, false_or, if_false]
    by_cases hplus : src.head? = some '+'.toUInt8
    · obtain ⟨rest, rfl⟩ := List.head?_eq_some_iff.mp hplus
      exact ⟨(['+'.toUInt8], 1), by cases allowMinus <;> decide, rfl, rfl, rfl⟩
    · simp only [hplus, if_false]
      exact ⟨([], 1), by cases allowMinus <;> decide, rfl, rfl, rfl⟩

theorem take_sign {sign : List UInt8} (h : src = sign ++ src.drop k)
    (hk : sign.length = k) : src.take (n + k) = sign ++ (src.drop k).take n := by
  conv_lhs => rw [h]
  rw [← hk, Nat.add_comm, List.take_length_add_append]

theorem tryParseInt_sound {w : ℤ} (h : tryParseInt src = some (w, m)) :
    int64.Contains w ∧ m ≤ src.length ∧ decimal.Denotes true (src.take m) w := by
  obtain ⟨sign, hsign, hsrc, hlen, hone⟩ := exists_sign src true
  simp only [true_and] at hsrc hlen hone
  simp only [tryParseInt, Option.bind_eq_bind, Option.bind_eq_some_iff, Option.pure_def,
    Option.some.injEq, Prod.mk.injEq, Prod.exists] at h
  obtain ⟨v, digits, hdigits, out, hout, rfl, rfl⟩ := h
  obtain ⟨-, hm, hbody⟩ := tryParseUInt_sound hdigits
  obtain ⟨hw, hin⟩ := withSign_eq_some.mp hout
  refine ⟨hin, ?_, sign, hsign, _, v, take_sign hsrc hlen, hbody, ?_⟩
  · grind
  · rw [hw, hone]
    simp only [decide_eq_true_eq]

theorem tryParseInt_digits (hds : ∀ d ∈ ds, d < 10) (hne : ds ≠ []) (neg : Bool)
    (hin : int64.Contains ((if neg then -1 else 1) * (value 10 ds : ℕ))) :
    tryParseInt ((if neg then ['-'.toUInt8] else []) ++ ds.map decimalDigit) =
      some ((if neg then -1 else 1) * ((value 10 ds : ℕ) : ℤ),
        ((if neg then ['-'.toUInt8] else []) ++ ds.map decimalDigit).length) := by
  have hrange : -2 ^ 63 ≤ (if neg then -1 else 1) * ((value 10 ds : ℕ) : ℤ) ∧
      (if neg then -1 else 1) * ((value 10 ds : ℕ) : ℤ) < 2 ^ 63 := hin
  have hfits : value 10 ds ≤ uint64Max := by
    unfold uint64Max
    cases neg <;> simp only [Bool.false_eq_true, if_true, if_false] at hrange <;> omega
  have hscan := tryParseUInt_digits hds hne hfits
  have hsign := withSign_eq_some.mpr ⟨rfl, hin⟩
  cases neg with
  | true => grind [tryParseInt]
  | false =>
    obtain ⟨d, rest, rfl⟩ := List.exists_cons_of_ne_nil hne
    have hd := isDigit_iff.mp (isDigit_decimalDigit (hds d List.mem_cons_self))
    -- a digit is no sign
    have hno : ∀ c : UInt8, c.toNat < 48 → (decimalDigit d :: rest.map decimalDigit).head? ≠ some c := by
      grind
    rw [List.map_cons] at hscan
    rw [tryParseInt]
    simp only [Bool.false_eq_true, if_false, List.nil_append, List.map_cons,
      hno '-'.toUInt8 (by decide), hno '+'.toUInt8 (by decide), or_self, List.drop_zero, hscan,
      Option.bind_eq_bind, Option.bind_some, decide_false] at hsign ⊢
    rw [hsign, List.length_cons, List.length_cons, List.length_map]
    rfl

/-! ## Hexadecimal digits -/

theorem pack_hex (v : ℕ) (hd : d < 16) : v <<< 4 ||| d = v * 16 + d :=
  shiftLeft_or v (w := 4) hd

/-- What is read is the value of the hexadecimal digits passed. -/
theorem scanHex_sound {max : ℕ} (h : scanHex max v n src = some (w, m)) :
    ∃ ds : List ℕ, m = n + ds.length ∧ ds.length ≤ src.length ∧
      Spelled hexDigit? (src.take ds.length) ds ∧ w = accumulate 16 v ds := by
  induction src generalizing v n with
  | nil =>
    cases h
    exact ⟨[], rfl, le_refl _, rfl, rfl⟩
  | cons c src ih =>
    rw [scanHex] at h
    cases hc : hexVal c with
    | none =>
      rw [hc] at h
      cases h
      exact ⟨[], rfl, Nat.zero_le _, rfl, rfl⟩
    | some d =>
      rw [hc] at h
      dsimp only at h
      split at h
      case isTrue hover => cases h
      case isFalse hfits =>
        obtain ⟨ds, hm, hlen, hspelled, heq⟩ := ih h
        refine ⟨d :: ds, ?_, ?_, ?_, ?_⟩
        · rw [hm, List.length_cons, Nat.add_assoc, Nat.add_comm 1]
        · rw [List.length_cons, List.length_cons]
          omega
        · rw [Spelled, List.length_cons, List.take_succ_cons, List.map_cons, List.map_cons,
            hexDigit?_eq_hexVal, hc, hspelled]
        · rw [heq, pack_hex v (hexVal_lt hc), Printed.accumulate_cons]

theorem tryParseHex_sound {max : ℕ} (h : tryParseHex src max = some (w, m)) :
    m ≤ src.length ∧ hexadecimal.Body (src.take m) w := by
  cases src with
  | nil => cases h
  | cons c src =>
    obtain ⟨d, hd, hscan⟩ := Option.bind_eq_some_iff.mp h
    obtain ⟨ds, rfl, hlen, hspelled, heq⟩ := scanHex_sound hscan
    refine ⟨by rw [List.length_cons]; omega, d :: ds, List.cons_ne_nil _ _, ?_, ?_⟩
    · rw [Spelled, Nat.add_comm, List.take_succ_cons, List.map_cons, List.map_cons,
        hexDigit?_eq_hexVal, hd, hspelled]
    · rw [heq, value, Printed.accumulate_cons, Nat.zero_mul, Nat.zero_add]

theorem scanHex_digits (hds : ∀ d ∈ ds, d < 16)
    (n : ℕ) (hv : accumulate 16 v ds ≤ 16 ^ (k + 1) - 1) :
    scanHex (16 ^ (k + 1) - 1) v n (ds.map fun d => (hexDigits uppercase).getD d 0) =
      some (accumulate 16 v ds, n + ds.length) := by
  induction ds generalizing v n with
  | nil => rfl
  | cons d ds ih =>
    have hd : d < 16 := hds d List.mem_cons_self
    have hle := value_le_accumulate (by decide : 1 ≤ 16) v d ds
    have hfits : ¬ v > (16 ^ (k + 1) - 1) >>> 4 := by
      rw [hexOverflow_iff hd]
      omega
    rw [List.map_cons, scanHex, hexVal_hexDigits uppercase hd]
    dsimp only
    rw [if_neg hfits, pack_hex v hd,
      ih (fun e he => hds e (List.mem_cons_of_mem _ he)) (n + 1) hv, List.length_cons,
      Printed.accumulate_cons, Nat.add_assoc, Nat.add_comm 1]

theorem tryParseHex_digits (hds : ∀ d ∈ ds, d < 16)
    (hne : ds ≠ []) (hv : value 16 ds ≤ 16 ^ (k + 1) - 1) :
    tryParseHex (ds.map fun d => (hexDigits uppercase).getD d 0) (16 ^ (k + 1) - 1) =
      some (value 16 ds, ds.length) := by
  obtain ⟨d, rest, rfl⟩ := List.exists_cons_of_ne_nil hne
  have hstart : value 16 (d :: rest) = accumulate 16 d rest := by
    rw [value, Printed.accumulate_cons, Nat.zero_mul, Nat.zero_add]
  rw [hstart] at hv ⊢
  rw [List.map_cons, tryParseHex, hexVal_hexDigits uppercase (hds d List.mem_cons_self)]
  rw [Option.bind_eq_bind, Option.bind_some,
    scanHex_digits uppercase (fun e he => hds e (List.mem_cons_of_mem _ he)) 1 hv, List.length_cons,
    Nat.add_comm]

/-! ## Grouped digits -/

variable {answer : ℕ}

theorem fractionalDigits_sound {index : ℕ} (h : fractionalDigits answer index src = some (w, n)) :
    w = answer ∧ ∃ zeros ≤ src.length, n = index + 1 + zeros ∧
      src.take zeros = List.replicate zeros '0'.toUInt8 := by
  induction src generalizing index with
  | nil =>
    cases h
    exact ⟨rfl, 0, le_refl _, rfl, rfl⟩
  | cons c src ih =>
    rw [fractionalDigits] at h
    split at h
    case isTrue hc =>
      obtain ⟨hw, zeros, hle, hn, htake⟩ := ih h
      refine ⟨hw, zeros + 1, Nat.succ_le_succ hle, by omega, ?_⟩
      rw [List.take_succ_cons, htake, hc, List.replicate_succ]
    case isFalse hc =>
      split at h
      case isTrue hdigit => cases h
      case isFalse hstop =>
        cases h
        exact ⟨rfl, 0, Nat.zero_le _, rfl, rfl⟩

def fraction (point : Bool) (zeros : ℕ) : List UInt8 :=
  if point then '.'.toUInt8 :: List.replicate zeros '0'.toUInt8 else []

/-- Digits and commas, and a fraction of zeros, have been passed. -/
theorem integralDigits_sound {index : ℕ}
    (h : integralDigits answer index src = some (w, n)) (hanswer : answer ≤ uint64Max) :
    w ≤ uint64Max ∧ ∃ k ≤ src.length, n = index + 1 + k ∧ ∃ body zeros point ds,
      src.take k = body ++ fraction point zeros ∧
      Spelled decimalDigit? (body.filter (· ≠ ','.toUInt8)) ds ∧ w = accumulate 10 answer ds := by
  induction src generalizing answer index with
  | nil =>
    cases h
    exact ⟨hanswer, 0, le_refl _, rfl, [], 0, false, [], rfl, rfl, rfl⟩
  | cons c src ih =>
    rw [integralDigits] at h
    by_cases hcomma : c = ','.toUInt8
    · rw [if_pos hcomma] at h
      obtain ⟨hw, k, hk, hn, body, zeros, point, ds, htake, hspelled, heq⟩ := ih h hanswer
      refine ⟨hw, k + 1, Nat.succ_le_succ hk, by omega, c :: body, zeros, point, ds, ?_, ?_, heq⟩
      · rw [List.take_succ_cons, htake, List.cons_append]
      · rw [List.filter_cons_of_neg (by simp [hcomma])]
        exact hspelled
    · rw [if_neg hcomma] at h
      by_cases hpoint : c = '.'.toUInt8
      · rw [if_pos hpoint] at h
        obtain ⟨hw, zeros, hle, hn, htake⟩ := fractionalDigits_sound h
        refine ⟨hw ▸ hanswer, zeros + 1, Nat.succ_le_succ hle, by omega, [], zeros, true, [], ?_, rfl,
          hw⟩
        rw [List.take_succ_cons, htake, hpoint]
        rfl
      · rw [if_neg hpoint] at h
        by_cases hdigit : isDigit c = true
        · rw [if_neg (not_not_intro hdigit)] at h
          have hd := toNat_sub_lt hdigit
          dsimp only at h
          split at h
          case isTrue hover => cases h
          case isFalse hfits =>
            rw [overflow_iff hd] at hfits
            obtain ⟨hw, k, hk, hn, body, zeros, point, ds, htake, hspelled, heq⟩ :=
              ih h (by omega)
            refine ⟨hw, k + 1, Nat.succ_le_succ hk, by omega, c :: body, zeros, point,
              (c.toNat - '0'.toNat) :: ds, ?_, ?_, heq⟩
            · rw [List.take_succ_cons, htake, List.cons_append]
            · rw [List.filter_cons_of_pos (by simp [hcomma]), Spelled, List.map_cons, List.map_cons,
                decimalDigit?_of_isDigit hdigit, hspelled]
        · rw [if_pos hdigit] at h
          cases h
          exact ⟨hanswer, 0, Nat.zero_le _, rfl, [], 0, false, [], rfl, rfl, rfl⟩

theorem tryParseGrouped_sound {allowMinus : Bool}
    (h : tryParseGrouped src allowMinus = some (v, neg, m)) :
    v ≤ uint64Max ∧ m ≤ src.length ∧ (neg = true → allowMinus = true) ∧
      grouped.Denotes allowMinus (src.take m) ((if neg then -1 else 1) * v) := by
  obtain ⟨sign, hsign, hsrc, hlen, hone⟩ := exists_sign src allowMinus
  rw [tryParseGrouped] at h
  dsimp only at h
  generalize hindex : (if (allowMinus ∧ src.head? = some '-'.toUInt8) ∨
    src.head? = some '+'.toUInt8 then 1 else 0) = index at h hsrc hlen
  have hlength : src.length = index + (src.drop index).length := by
    have := congrArg List.length hsrc
    rwa [List.length_append, hlen] at this
  cases hrest : src.drop index with
  | nil =>
    rw [hrest] at h
    cases h
  | cons c rest =>
    rw [hrest] at h hlength
    rw [List.length_cons] at hlength
    obtain ⟨⟨magnitude, n⟩, hbody, hresult⟩ := Option.map_eq_some_iff.mp h
    cases hresult
    -- what both branches have to show of the text after the sign
    have hdone : ∀ k ≤ rest.length, n = index + 1 + k → magnitude ≤ uint64Max →
        grouped.Body (c :: rest.take k) magnitude →
        magnitude ≤ uint64Max ∧ n ≤ src.length ∧
          (decide (allowMinus ∧ src.head? = some '-'.toUInt8) = true → allowMinus = true) ∧
          grouped.Denotes allowMinus (src.take n)
            ((if decide (allowMinus ∧ src.head? = some '-'.toUInt8) = true then -1 else 1) *
              magnitude) := by
      intro k hk hn hle hgrouped
      refine ⟨hle, by omega, fun hneg => (of_decide_eq_true hneg).1, sign, hsign, c :: rest.take k,
        magnitude, ?_, hgrouped, ?_⟩
      · have htake := take_sign (n := k + 1) hsrc hlen
        rw [hrest, List.take_succ_cons] at htake
        rw [← htake, hn, Nat.add_assoc, Nat.add_comm index, Nat.add_comm 1]
      · rw [hone]
        simp only [decide_eq_true_eq]
    by_cases hpoint : c = '.'.toUInt8
    · rw [if_pos hpoint] at hbody
      cases rest with
      | nil => cases hbody
      | cons d rest =>
        rw [fractionalNoLeading] at hbody
        by_cases hd : d = '0'.toUInt8
        · rw [if_neg (not_not_intro hd)] at hbody
          obtain ⟨rfl, zeros, hle, hn, htake⟩ := fractionalDigits_sound hbody
          refine hdone (zeros + 1) (Nat.succ_le_succ hle) (by omega) (Nat.zero_le _)
            ⟨[], ⟨[], zeros + 1, true, ?_, rfl, Or.inl ⟨rfl, rfl, Nat.succ_pos _⟩⟩, rfl⟩
          rw [List.take_succ_cons, htake, hpoint, hd]
          rfl
        · rw [if_pos hd] at hbody
          cases hbody
    · rw [if_neg hpoint] at hbody
      by_cases hdigit : isDigit c = true
      · rw [if_neg (not_not_intro hdigit)] at hbody
        have hd := toNat_sub_lt hdigit
        obtain ⟨hw, k, hk, hn, body, zeros, point, ds, htake, hspelled, heq⟩ :=
          integralDigits_sound hbody (by unfold uint64Max; omega)
        have hcomma : c ≠ ','.toUInt8 := by
          rintro rfl
          cases hdigit
        refine hdone k hk hn hw ⟨(c.toNat - '0'.toNat) :: ds,
          ⟨c :: body, zeros, point, ?_, ?_, Or.inr ⟨c, body, rfl, hcomma⟩⟩, ?_⟩
        · rw [htake, List.cons_append]
          rfl
        · rw [List.filter_cons_of_pos (by simp [hcomma]), Spelled, List.map_cons, List.map_cons,
            decimalDigit?_of_isDigit hdigit, hspelled]
        · rw [heq, value, Printed.accumulate_cons, Nat.zero_mul, Nat.zero_add]
      · rw [if_pos hdigit] at hbody
        cases hbody

theorem fractionalDigits_zeros (answer index zeros : ℕ) :
    fractionalDigits answer index (List.replicate zeros '0'.toUInt8) =
      some (answer, index + zeros + 1) := by
  induction zeros generalizing index with
  | zero => rfl
  | succ zeros ih =>
    rw [List.replicate_succ, fractionalDigits, if_pos rfl, ih, Nat.add_assoc index, Nat.add_comm 1]

theorem integralDigits_grouped (hds : ∀ d ∈ ds, d < 10) (index : ℕ)
    (hanswer : accumulate 10 answer ds ≤ uint64Max) (rest : List UInt8) :
    integralDigits answer index (groupDigits false (ds.map decimalDigit) ++ rest) =
      integralDigits (accumulate 10 answer ds)
        (index + (groupDigits false (ds.map decimalDigit)).length) rest := by
  induction ds generalizing answer index with
  | nil => rfl
  | cons d ds ih =>
    have hd : d < 10 := hds d List.mem_cons_self
    have hdigit := isDigit_decimalDigit hd
    have hle := value_le_accumulate (by decide : 1 ≤ 10) answer d ds
    have hcomma : decimalDigit d ≠ ','.toUInt8 := fun heq => by
      rw [heq] at hdigit
      cases hdigit
    have hpoint : decimalDigit d ≠ '.'.toUInt8 := fun heq => by
      rw [heq] at hdigit
      cases hdigit
    -- the digit, whether or not a comma comes first
    have hstep : ∀ i, integralDigits answer i
        (decimalDigit d :: (groupDigits false (ds.map decimalDigit) ++ rest)) =
        integralDigits (accumulate 10 answer (d :: ds))
          (i + 1 + (groupDigits false (ds.map decimalDigit)).length) rest := by
      grind [integralDigits, toNat_decimalDigit, Printed.accumulate_cons]
    rw [List.map_cons, groupDigits]
    split
    case isTrue hgroup => grind [integralDigits]
    case isFalse hplain =>
      rw [List.cons_append, hstep, List.length_cons]
      congr 1
      omega

theorem tryParseGrouped_grouped (hds : ∀ d ∈ ds, d < 10) (hne : ds ≠ [])
    (hvalue : value 10 ds ≤ uint64Max) {allowMinus : Bool} (hneg : neg = true → allowMinus = true)
    (point : Bool) (zeros : ℕ) :
    tryParseGrouped ((if neg then ['-'.toUInt8] else []) ++
        groupDigits true (ds.map decimalDigit) ++ fraction point zeros) allowMinus =
      some (value 10 ds, neg, ((if neg then ['-'.toUInt8] else []) ++
        groupDigits true (ds.map decimalDigit) ++ fraction point zeros).length) := by
  obtain ⟨d, rest, rfl⟩ := List.exists_cons_of_ne_nil hne
  have hd : d < 10 := hds d List.mem_cons_self
  have hdigit := isDigit_decimalDigit hd
  have hrange := isDigit_iff.mp hdigit
  have hother : ∀ c : UInt8, c.toNat < 48 → decimalDigit d ≠ c := by
    rintro c hc rfl
    omega
  have hstart : value 10 (d :: rest) = accumulate 10 d rest := by
    rw [value, Printed.accumulate_cons, Nat.zero_mul, Nat.zero_add]
  rw [hstart] at hvalue ⊢
  have hgrouped : groupDigits true ((d :: rest).map decimalDigit) =
      decimalDigit d :: groupDigits false (rest.map decimalDigit) := by
    rw [List.map_cons, groupDigits, if_neg (by simp)]
  -- the scan after the sign
  have hscan : ∀ index, integralDigits d index
      (groupDigits false (rest.map decimalDigit) ++ fraction point zeros) =
      some (accumulate 10 d rest, index +
        (decimalDigit d :: groupDigits false (rest.map decimalDigit) ++
          fraction point zeros).length) := by
    intro index
    rw [integralDigits_grouped (fun e he => hds e (List.mem_cons_of_mem _ he)) index hvalue]
    cases point with
    | false =>
      rw [fraction, if_neg (by decide), integralDigits, List.append_nil, List.length_cons,
        Nat.add_assoc]
    | true =>
      rw [fraction, if_pos rfl, integralDigits, if_neg (by decide), if_pos rfl,
        fractionalDigits_zeros, List.length_append, List.length_cons, List.length_cons,
        List.length_replicate]
      congr 2
      omega
  rw [hgrouped]
  cases neg with
  | true =>
    obtain rfl := hneg rfl
    rw [tryParseGrouped]
    simp only [if_true, List.cons_append, List.nil_append, List.head?_cons, and_self, true_or,
      List.drop_succ_cons, List.drop_zero, decide_true]
    rw [if_neg (hother '.'.toUInt8 (by decide)), if_neg (not_not_intro hdigit),
      toNat_decimalDigit hd, hscan, Option.map_some, List.length_cons, Nat.add_comm,
      List.cons_append]
  | false =>
    have hminus : some (decimalDigit d) ≠ some '-'.toUInt8 :=
      fun h => hother _ (by decide) (Option.some.inj h)
    have hplus : some (decimalDigit d) ≠ some '+'.toUInt8 :=
      fun h => hother _ (by decide) (Option.some.inj h)
    rw [tryParseGrouped]
    simp only [Bool.false_eq_true, if_false, List.cons_append, List.nil_append, List.head?_cons,
      hminus, hplus, and_false, or_self, List.drop_zero, decide_false]
    rw [if_neg (hother '.'.toUInt8 (by decide)), if_neg (not_not_intro hdigit),
      toNat_decimalDigit hd, hscan, Option.map_some, Nat.zero_add, List.cons_append]

/-! ## What is written -/

theorem pushed_reverse (b v minDigits : ℕ) :
    (pushed b v minDigits).reverse = padded b minDigits v := by grind [numeral, pushed, padded]

variable {destination result : List UInt8}

theorem take_of_copyOut {capacity : ℕ} {buf : List UInt8}
    (h : copyOut capacity buf destination = pure ⟨true, n, result⟩) :
    result.take n = buf ∧ n = buf.length := by
  have houtcome := congrArg Run.outcome h
  change (if destination.length < buf.length then (pure ⟨false, 0, destination⟩ :
    Run Exception Formatted) else pure ⟨true, buf.length, buf ++ destination.drop buf.length⟩).outcome =
      Outcome.returned _ at houtcome
  split at houtcome
  case isTrue hshort => cases houtcome
  case isFalse hlong => grind [Run.outcome_pure]

theorem magnitude_eq {v : ℤ} (h : int64.Contains v) : magnitude v = pure v.natAbs := by
  obtain ⟨hlo, hhi⟩ : -2 ^ 63 ≤ v ∧ v < 2 ^ 63 := h
  unfold magnitude
  split
  case isTrue hneg =>
    obtain ⟨k, hk⟩ : ∃ k : ℕ, -(v + 1) = k := ⟨(-(v + 1)).toNat, by omega⟩
    rw [Run.signed_eq_pure (by decide) (by omega) (by omega), pure_bind,
      Run.signed_eq_pure (by decide) (by omega) (by omega), pure_bind, hk,
      wrap_of_lt (by omega), Run.word_of_eq v.natAbs (by omega) (by omega)]
  case isFalse hpos =>
    obtain ⟨k, rfl⟩ : ∃ k : ℕ, v = k := ⟨v.toNat, by omega⟩
    rw [wrap_of_lt (by omega), Int.natAbs_natCast]

variable {t : IntegerType}

theorem int64_contains {v : ℤ} (h : t.Contains v) (hsigned : t.isSigned = true) :
    int64.Contains v := by
  have hgoal : int64.Contains v ↔ -2 ^ 63 ≤ v ∧ v < 2 ^ 63 := Iff.rfl
  rw [hgoal]
  cases t <;>
    simp only [Contains, isSigned, bits, byteWidth,
      if_true, Bool.false_eq_true] at h hsigned <;>
    omega

theorem uint64_contains {v : ℤ} (h : t.Contains v)
    (hsigned : t.isSigned = false) : 0 ≤ v ∧ v.toNat ≤ uint64Max := by
  unfold uint64Max
  cases t <;>
    simp only [Contains, isSigned, bits, byteWidth,
      if_false, Bool.true_eq_false, Bool.false_eq_true] at h hsigned <;>
    omega

theorem sign_mul_natAbs (v : ℤ) :
    (if decide (v < 0) = true then -1 else 1) * (v.natAbs : ℤ) = v := by grind

theorem padded_ne_nil (b w n : ℕ) : padded b w n ≠ [] := by
  intro h
  have hpos := Printed.numeral_length_pos b n
  have hlen := congrArg List.length h
  rw [padded, List.length_append, List.length_nil] at hlen
  omega

/-! ## Symbols -/

theorem ofSymbol_eq (c : UInt8) :
    ofSymbol c =
      let symbol := if c = 0 then 'G'.toUInt8 else c
      if symbol ||| 0x20 = 'g'.toUInt8 ∨ symbol ||| 0x20 = 'd'.toUInt8 ∨
          symbol ||| 0x20 = 'r'.toUInt8 then some decimal
      else if symbol ||| 0x20 = 'x'.toUInt8 then some hexadecimal
      else if symbol ||| 0x20 = 'n'.toUInt8 then some grouped
      else none := by
  revert c
  decide

theorem ofSymbol_of_format (c : UInt8) :
    (c ||| 0x20 = 'd'.toUInt8 → ofSymbol c = some decimal) ∧
    (c ||| 0x20 = 'x'.toUInt8 → ofSymbol c = some hexadecimal) ∧
    (c ||| 0x20 = 'n'.toUInt8 → ofSymbol c = some grouped) ∧
    (c ||| 0x20 = 'g'.toUInt8 ∨ c ||| 0x20 = 'r'.toUInt8 → ofSymbol c = some decimal) := by
  revert c
  decide

theorem tryParseIntegerCore_eq (source : List UInt8) (symbol : UInt8) (byteWidth : ℕ)
    (isSigned : Bool) :
    tryParseIntegerCore source symbol byteWidth isSigned =
      match ofSymbol symbol with
      | some decimal =>
        if isSigned then pure (tryParseInt source)
        else pure ((tryParseUInt source).map fun (v, n) => ((v : ℤ), n))
      | some hexadecimal =>
        let widthMax := if 8 ≤ byteWidth then 2 ^ 64 - 1 else 2 ^ (byteWidth * 8) - 1
        pure do
          let (v, consumed) ← tryParseHex source widthMax
          if v > widthMax then none
          else if isSigned then some (asSigned byteWidth v, consumed)
          else some ((v : ℤ), consumed)
      | some grouped =>
        pure do
          let (magnitude, neg, consumed) ← tryParseGrouped source isSigned
          if isSigned then do
            let out ← withSign neg magnitude
            pure (out, consumed)
          else if neg then none
          else some ((magnitude : ℤ), consumed)
      | none => Run.throwing (.format "Format specifier was invalid.") := by
  rw [ofSymbol_eq, tryParseIntegerCore]
  dsimp only
  generalize (if symbol = 0 then 'G'.toUInt8 else symbol) = symbol
  split
  case isTrue hdecimal => rfl
  case isFalse hother =>
    split
    case isTrue hhex => rfl
    case isFalse hother =>
      split
      case isTrue hgrouped => rfl
      case isFalse hother => rfl

theorem widthMax_eq (t : IntegerType) :
    (if 8 ≤ t.byteWidth then 2 ^ 64 - 1 else 2 ^ (t.byteWidth * 8) - 1) = 2 ^ t.bits - 1 ∧
      2 ^ t.bits = 16 ^ (2 * t.byteWidth - 1 + 1) := by
  cases t <;> exact ⟨rfl, rfl⟩

theorem bits_pos (t : IntegerType) : 0 < t.bits := by
  cases t <;> decide

theorem asSigned_contains (hsigned : t.isSigned = true) (v : ℕ) :
    t.Contains (asSigned t.byteWidth v) := by
  have hbits : t.byteWidth * 8 = t.bits := rfl
  obtain ⟨k, hk⟩ : ∃ k, t.bits = k + 1 := ⟨t.bits - 1, by have := bits_pos t; omega⟩
  have hlo := Int.le_bmod (x := v) (m := 2 ^ (k + 1)) (Nat.pow_pos (by decide))
  have hhi := Int.bmod_lt (x := v) (m := 2 ^ (k + 1)) (Nat.pow_pos (by decide))
  rw [Contains, if_pos hsigned, asSigned, hbits, hk, Nat.add_sub_cancel]
  push_cast at hlo hhi ⊢
  omega

/-! ## Reading what was written -/

variable {source : List UInt8} {symbol : UInt8}

theorem tryParse_of_core {v : ℤ}
    (h : tryParseIntegerCore source symbol t.byteWidth t.isSigned = pure (some (v, n)))
    (hv : t.Contains v) : tryParse t source symbol = pure ⟨true, v, n⟩ := by
  rw [tryParse, h, pure_bind]
  exact if_neg fun hout => hout.2 hv

theorem tryParse_decimal (hsymbol : ofSymbol symbol = some decimal)
    (value : t.Value) {minDigits : ℕ}
    (h : (if t.isSigned then tryFormatSignedDecimal value.val minDigits destination
      else tryFormatUnsignedDecimal value.val.toNat minDigits destination) =
        pure ⟨true, n, result⟩) :
    tryParse t (result.take n) symbol = pure ⟨true, value.val, n⟩ := by
  have hdigits : ∀ m, ∀ d ∈ padded 10 minDigits m, d < 10 :=
    fun m d => Printed.lt_of_mem_padded (by decide)
  refine tryParse_of_core ?_ value.property
  rw [tryParseIntegerCore_eq, hsymbol]
  cases hsigned : t.isSigned with
  | true =>
    have hin := int64_contains value.property hsigned
    rw [hsigned, if_pos rfl, tryFormatSignedDecimal, magnitude_eq hin, pure_bind] at h
    obtain ⟨htake, hn⟩ := take_of_copyOut h
    have hbuf : (if value.val < 0 then (pushed 10 value.val.natAbs minDigits).map decimalDigit ++
        ['-'.toUInt8] else (pushed 10 value.val.natAbs minDigits).map decimalDigit).reverse =
        (if decide (value.val < 0) = true then ['-'.toUInt8] else []) ++
          (padded 10 minDigits value.val.natAbs).map decimalDigit := by
      rw [← pushed_reverse, List.map_reverse]
      simp only [decide_eq_true_eq]
      split
      case isTrue hneg => rw [List.reverse_append]; rfl
      case isFalse hpos => rw [List.nil_append]
    have hvalue := sign_mul_natAbs value.val
    rw [hbuf] at htake hn
    have hparse := tryParseInt_digits (hdigits value.val.natAbs) (padded_ne_nil _ _ _)
      (decide (value.val < 0)) (by rw [Printed.value_padded, hvalue]; exact hin)
    rw [Printed.value_padded, hvalue, ← hn, ← htake] at hparse
    exact congrArg pure hparse
  | false =>
    obtain ⟨hpos, hmax⟩ := uint64_contains value.property hsigned
    rw [hsigned, if_neg Bool.false_ne_true, tryFormatUnsignedDecimal] at h
    obtain ⟨htake, hn⟩ := take_of_copyOut h
    rw [← List.map_reverse, pushed_reverse] at htake hn
    have hparse := tryParseUInt_digits (hdigits value.val.toNat) (padded_ne_nil _ _ _)
      (by rw [Printed.value_padded]; exact hmax)
    rw [List.length_map] at hn
    rw [Printed.value_padded, ← hn, ← htake] at hparse
    simp only [Bool.false_eq_true, if_false, hparse, Option.map_some, Int.toNat_of_nonneg hpos]

theorem tryParse_hexadecimal
    (hsymbol : ofSymbol symbol = some hexadecimal) (value : t.Value) {uppercase : Bool}
    {minDigits : ℕ}
    (h : tryFormatUnsignedHex (if t.isSigned then wrap 64 value.val else value.val.toNat) t.byteWidth
      uppercase minDigits destination = pure ⟨true, n, result⟩) :
    tryParse t (result.take n) symbol = pure ⟨true, value.val, n⟩ := by
  obtain ⟨hmax, hpow⟩ := widthMax_eq t
  -- the bits written are the value modulo two to the width
  have hbits : (((if t.isSigned then wrap 64 value.val else value.val.toNat) &&& (2 ^ t.bits - 1) : ℕ) : ℤ) =
      value.val % 2 ^ t.bits := by
    rw [Nat.and_two_pow_sub_one_eq_mod]
    push_cast
    cases hsigned : t.isSigned with
    | true =>
      rw [if_pos rfl, wrap, Int.toNat_of_nonneg (Int.emod_nonneg _ (by decide))]
      apply Int.emod_emod_of_dvd
      exact pow_dvd_pow 2 (by cases t <;> decide)
    | false =>
      rw [if_neg Bool.false_ne_true, Int.toNat_of_nonneg (uint64_contains value.property hsigned).1]
  rw [tryFormatUnsignedHex, hmax] at h
  generalize hm : (if t.isSigned then wrap 64 value.val else value.val.toNat) &&& (2 ^ t.bits - 1) = m
    at h hbits
  have hle : m ≤ 2 ^ t.bits - 1 := hm ▸ Nat.and_le_right
  obtain ⟨htake, hn⟩ := take_of_copyOut h
  rw [← List.map_reverse, pushed_reverse] at htake hn
  have hparse := tryParseHex_digits uppercase (k := 2 * t.byteWidth - 1)
    (fun d => Printed.lt_of_mem_padded (by decide)) (padded_ne_nil 16 minDigits m)
    (by rw [Printed.value_padded, ← hpow]; exact hle)
  rw [Printed.value_padded, ← htake, ← hpow] at hparse
  rw [List.length_map] at hn
  refine tryParse_of_core ?_ value.property
  rw [tryParseIntegerCore_eq, hsymbol]
  dsimp only
  rw [hmax, hparse, Option.bind_eq_bind, Option.bind_some, ← hn]
  rw [if_neg (by omega)]
  cases hsigned : t.isSigned with
  | true =>
    have hvalue : asSigned t.byteWidth m = value.val := by
      have hcontains := value.property
      obtain ⟨k, hk⟩ : ∃ k, t.bits = k + 1 := ⟨t.bits - 1, by have := bits_pos t; omega⟩
      have hcast : ((2 ^ (k + 1) : ℕ) : ℤ) = 2 ^ (k + 1) := by push_cast; rfl
      rw [Contains, if_pos hsigned, hk, Nat.add_sub_cancel] at hcontains
      rw [asSigned, hbits, show t.byteWidth * 8 = t.bits from rfl, hk, ← hcast, Int.emod_bmod]
      apply Int.bmod_eq_of_le
      · omega
      · omega
    rw [if_pos rfl, hvalue]
  | false =>
    have hcontains := value.property
    rw [Contains, hsigned, if_neg Bool.false_ne_true] at hcontains
    rw [if_neg Bool.false_ne_true, hbits, Int.emod_eq_of_lt hcontains.1 hcontains.2]

theorem tryParse_grouped (hsymbol : ofSymbol symbol = some grouped)
    (value : t.Value) {decimalDigits : ℕ}
    (h : tryFormatGrouped (t.isSigned && decide (value.val < 0)) value.val.natAbs decimalDigits
      destination = pure ⟨true, n, result⟩) :
    tryParse t (result.take n) symbol = pure ⟨true, value.val, n⟩ := by
  have hneg : (t.isSigned && decide (value.val < 0)) = decide (value.val < 0) := by
    grind [uint64_contains]
  have hallow : decide (value.val < 0) = true → t.isSigned = true := by
    rw [← hneg, Bool.and_eq_true]
    exact fun h => h.1
  have hmax : value.val.natAbs ≤ uint64Max := by
    unfold uint64Max
    cases hsigned : t.isSigned with
    | true =>
      obtain ⟨hlo, hhi⟩ : -2 ^ 63 ≤ value.val ∧ value.val < 2 ^ 63 :=
        int64_contains value.property hsigned
      omega
    | false =>
      have := uint64_contains value.property hsigned
      unfold uint64Max at this
      omega
  have hdigits : ∀ d ∈ padded 10 0 value.val.natAbs, d < 10 :=
    fun d => Printed.lt_of_mem_padded (by decide)
  have hbuf : ((pushed 10 value.val.natAbs 0).map decimalDigit).reverse =
      (padded 10 0 value.val.natAbs).map decimalDigit := by
    rw [← List.map_reverse, pushed_reverse]
  have hlen : ((padded 10 0 value.val.natAbs).map decimalDigit).length ≤ 24 := by
    have hnumeral := Printed.numeral_length_le (b := 10) (w := 20) (by decide) (by decide)
      (show value.val.natAbs < 10 ^ 20 by unfold uint64Max at hmax; omega)
    rw [List.length_map, padded, Nat.zero_sub, List.replicate_zero, List.nil_append]
    omega
  rw [tryFormatGrouped, hbuf, Run.observe_eq_pure hlen, pure_bind, hneg] at h
  obtain ⟨htake, hn⟩ := take_of_copyOut h
  -- the text is the sign, the groups and the fraction
  have htext : (if 0 < decimalDigits then
      (if decide (value.val < 0) = true then ['-'.toUInt8] else []) ++
        groupDigits true ((padded 10 0 value.val.natAbs).map decimalDigit) ++
        '.'.toUInt8 :: List.replicate decimalDigits '0'.toUInt8
      else (if decide (value.val < 0) = true then ['-'.toUInt8] else []) ++
        groupDigits true ((padded 10 0 value.val.natAbs).map decimalDigit)) =
      (if decide (value.val < 0) = true then ['-'.toUInt8] else []) ++
        groupDigits true ((padded 10 0 value.val.natAbs).map decimalDigit) ++
        fraction (decide (0 < decimalDigits)) decimalDigits := by grind [fraction]
  rw [htext] at htake hn
  have hparse := tryParseGrouped_grouped hdigits (padded_ne_nil 10 0 _)
    (by rw [Printed.value_padded]; exact hmax) hallow (decide (0 < decimalDigits)) decimalDigits
  rw [Printed.value_padded, ← hn, ← htake] at hparse
  refine tryParse_of_core ?_ value.property
  rw [tryParseIntegerCore_eq, hsymbol]
  dsimp only
  rw [hparse, Option.bind_eq_bind, Option.bind_some]
  cases hsigned : t.isSigned with
  | true =>
    have hin := int64_contains value.property hsigned
    have hsign := withSign_eq_some.mpr ⟨(sign_mul_natAbs value.val).symm, hin⟩
    rw [if_pos rfl, hsign]
    rfl
  | false =>
    have hpos := (uint64_contains value.property hsigned).1
    rw [if_neg Bool.false_ne_true, if_neg (by simpa using hpos), Int.natAbs_of_nonneg hpos]

theorem tryParse_tryFormat {value : t.Value} {format : StandardFormat}
    (h : tryFormat t value destination format = pure ⟨true, n, result⟩) :
    tryParse t (result.take n) format.symbol = pure ⟨true, value.val, n⟩ := by
  obtain ⟨hd, hx, hn, hg⟩ := ofSymbol_of_format format.symbol
  -- both kinds of overloads, by what their core is given
  have hmagnitude : (if t.isSigned then magnitude value.val else pure value.val.toNat :
      Run Exception ℕ) = pure value.val.natAbs := by
    cases hsigned : t.isSigned with
    | true => exact magnitude_eq (int64_contains value.property hsigned)
    | false => grind [uint64_contains]
  have hcore : tryFormat t value destination format =
      tryFormatIntegerCore t.isSigned (if t.isSigned then value.val else 0)
        (if t.isSigned then 0 else value.val.toNat) t.byteWidth destination format := by
    rw [tryFormat]
    cases t.isSigned <;> rfl
  have hdecimal : ∀ minDigits,
      (if t.isSigned then
        tryFormatSignedDecimal (if t.isSigned then value.val else 0) minDigits destination
      else tryFormatUnsignedDecimal (if t.isSigned then 0 else value.val.toNat) minDigits destination) =
      if t.isSigned then tryFormatSignedDecimal value.val minDigits destination
      else tryFormatUnsignedDecimal value.val.toNat minDigits destination := by
    intro minDigits
    cases t.isSigned <;> rfl
  rw [hcore, tryFormatIntegerCore] at h
  by_cases hdefault : format.getIsDefaultProperty = true
  · rw [if_pos hdefault, hdecimal] at h
    rw [StandardFormat.getIsDefaultProperty, decide_eq_true_eq] at hdefault
    exact tryParse_decimal (by rw [hdefault.1]; rfl) value h
  rw [if_neg hdefault] at h
  by_cases hsymbol : format.symbol ||| 0x20 = 'd'.toUInt8
  · rw [if_pos hsymbol, hdecimal] at h
    exact tryParse_decimal (hd hsymbol) value h
  rw [if_neg hsymbol] at h
  by_cases hsymbol : format.symbol ||| 0x20 = 'x'.toUInt8
  · grind [tryParse_hexadecimal]
  rw [if_neg hsymbol] at h
  by_cases hsymbol : format.symbol ||| 0x20 = 'n'.toUInt8
  · -- the magnitude is the same in both branches
    cases hsigned : t.isSigned with
    | true => grind [tryParse_grouped]
    | false => grind [tryParse_grouped]
  rw [if_neg hsymbol] at h
  by_cases hsymbol : format.symbol ||| 0x20 = 'g'.toUInt8 ∨ format.symbol ||| 0x20 = 'r'.toUInt8
  · rw [if_pos hsymbol] at h
    split at h
    case isTrue hprecision => cases h
    case isFalse hnone =>
      rw [hdecimal] at h
      exact tryParse_decimal (hg hsymbol) value h
  · rw [if_neg hsymbol] at h
    cases h

theorem core_of_tryParse {v : ℤ} (h : tryParse t source symbol = pure ⟨true, v, n⟩) :
    tryParseIntegerCore source symbol t.byteWidth t.isSigned = pure (some (v, n)) ∧
      (t.byteWidth < 8 → t.Contains v) := by
  have hcore : (∃ r, tryParseIntegerCore source symbol t.byteWidth t.isSigned = pure r) ∨
      ∃ e, tryParseIntegerCore source symbol t.byteWidth t.isSigned = Run.throwing e := by
    rw [tryParseIntegerCore_eq]
    split
    · split
      · exact Or.inl ⟨_, rfl⟩
      · exact Or.inl ⟨_, rfl⟩
    · exact Or.inl ⟨_, rfl⟩
    · exact Or.inl ⟨_, rfl⟩
    · exact Or.inr ⟨_, rfl⟩
  rw [tryParse] at h
  rcases hcore with ⟨r, hr⟩ | ⟨e, he⟩
  · rw [hr, pure_bind] at h
    cases r with
    | none =>
      cases h
    | some result =>
      dsimp only at h
      split at h
      case isTrue hout =>
        cases h
      case isFalse hin => grind [Run.pure_inj]
  · rw [he] at h
    cases h

/-- What is parsed is the value of the bytes consumed. -/
theorem tryParse_sound {v : ℤ} (h : tryParse t source symbol = pure ⟨true, v, n⟩) :
    t.Contains v ∧ n ≤ source.length ∧ HasValue t symbol (source.take n) v := by
  obtain ⟨hcore, hnarrow⟩ := core_of_tryParse h
  -- a type of eight bytes holds what the core parses
  have hwide : (t.isSigned = true → int64.Contains v) →
      (t.isSigned = false → ∃ k ≤ uint64Max, v = (k : ℤ)) → t.Contains v := by
    intro hsigned hunsigned
    by_cases hbytes : t.byteWidth < 8
    · exact hnarrow hbytes
    · cases t with
      | int64 => exact hsigned rfl
      | uint64 =>
        obtain ⟨k, hk, rfl⟩ := hunsigned rfl
        have hlt : (k : ℤ) < 2 ^ 64 := by
          unfold uint64Max at hk
          omega
        exact ⟨Int.natCast_nonneg k, hlt⟩
      | _ => exact absurd (by decide) hbytes
  rw [tryParseIntegerCore_eq] at hcore
  cases hsymbol : ofSymbol symbol with
  | none =>
    rw [hsymbol] at hcore
    cases hcore
  | some kind =>
    rw [hsymbol] at hcore
    cases kind with
    | decimal =>
      dsimp only at hcore
      cases hsigned : t.isSigned with
      | true =>
        rw [hsigned, if_pos rfl, Run.pure_inj] at hcore
        obtain ⟨hin, hn, hdenotes⟩ := tryParseInt_sound hcore
        refine ⟨hwide (fun _ => hin) (by rw [hsigned]; intro h; cases h), hn, decimal, hsymbol, v, ?_, rfl⟩
        rw [hsigned]
        exact hdenotes
      | false =>
        rw [hsigned, if_neg Bool.false_ne_true, Run.pure_inj] at hcore
        obtain ⟨⟨w, m⟩, hparse, hresult⟩ := Option.map_eq_some_iff.mp hcore
        cases hresult
        obtain ⟨hw, hn, hbody⟩ := tryParseUInt_sound hparse
        refine ⟨hwide (by rw [hsigned]; intro h; cases h) (fun _ => ⟨w, hw, rfl⟩), hn, decimal, hsymbol, w, ?_,
          rfl⟩
        rw [hsigned]
        exact ⟨([], 1), List.mem_singleton_self _, source.take m, w, rfl, hbody, (one_mul _).symm⟩
    | hexadecimal =>
      dsimp only at hcore
      obtain ⟨hmax, -⟩ := widthMax_eq t
      rw [hmax, Run.pure_inj, Option.bind_eq_bind, Option.bind_eq_some_iff] at hcore
      obtain ⟨⟨w, m⟩, hparse, hresult⟩ := hcore
      obtain ⟨hn, hbody⟩ := tryParseHex_sound hparse
      have hdenotes : hexadecimal.Denotes t.isSigned (source.take m) w :=
        ⟨([], 1), List.mem_singleton_self _, source.take m, w, rfl, hbody, (one_mul _).symm⟩
      split at hresult
      case isTrue hover => cases hresult
      case isFalse hle =>
        split at hresult
        case isTrue hsigned =>
          cases hresult
          refine ⟨asSigned_contains hsigned w, hn, hexadecimal, hsymbol, w, hdenotes, ?_⟩
          exact_mod_cast Int.bmod_emod (x := (w : ℤ)) (m := 2 ^ t.bits)
        case isFalse hsigned =>
          cases hresult
          refine ⟨?_, hn, hexadecimal, hsymbol, w, hdenotes, ?_⟩
          · rw [Contains, if_neg hsigned]
            have hpos : 0 < 2 ^ t.bits := Nat.pow_pos (by decide)
            exact ⟨Int.natCast_nonneg w, by exact_mod_cast (by omega : w < 2 ^ t.bits)⟩
          · rw [if_pos rfl]
    | grouped =>
      dsimp only at hcore
      rw [Run.pure_inj, Option.bind_eq_bind, Option.bind_eq_some_iff] at hcore
      obtain ⟨⟨magnitude, neg, m⟩, hparse, hresult⟩ := hcore
      obtain ⟨hmagnitude, hn, hallow, hdenotes⟩ := tryParseGrouped_sound hparse
      split at hresult
      case isTrue hsigned =>
        obtain ⟨out, hout, hresult⟩ := Option.bind_eq_some_iff.mp hresult
        cases hresult
        obtain ⟨rfl, hin⟩ := withSign_eq_some.mp hout
        exact ⟨hwide (fun _ => hin) (by rw [hsigned]; intro h; cases h), hn, grouped, hsymbol, _, hdenotes, rfl⟩
      case isFalse hsigned =>
        split at hresult
        case isTrue hneg => cases hresult
        case isFalse hneg =>
          cases hresult
          rw [if_neg hneg, one_mul] at hdenotes
          exact ⟨hwide (fun hs => absurd hs hsigned) (fun _ => ⟨magnitude, hmagnitude, rfl⟩), hn,
            grouped, hsymbol, _, hdenotes, rfl⟩

/-- **The formatter and the parser agree**: what `tryFormat` writes for a value of any of the types
under any format, `tryParse` reads back as that value, all of it; and whatever `tryParse` accepts is
a number of the type, the one that the text it consumes stands for under the format. -/
theorem utf8_integers :
    (∀ (t : IntegerType) (value : t.Value) (format : StandardFormat)
      (destination result : List UInt8) (n : ℕ),
      tryFormat t value destination format = pure ⟨true, n, result⟩ →
        tryParse t (result.take n) format.symbol = pure ⟨true, value.val, n⟩) ∧
    ∀ (t : IntegerType) (source : List UInt8) (symbol : UInt8) (v : ℤ) (n : ℕ),
      tryParse t source symbol = pure ⟨true, v, n⟩ →
        t.Contains v ∧ n ≤ source.length ∧ HasValue t symbol (source.take n) v :=
  ⟨fun _ _ _ _ _ _ h => tryParse_tryFormat h, fun _ _ _ _ _ h => tryParse_sound h⟩

/-- The least number of 16 bits, grouped with three decimals. -/
theorem utf8_integers_minimum :
    tryParse .int16 ("-32,768.000".toList.map Char.toUInt8) 'N'.toUInt8 =
      pure ⟨true, -32768, 11⟩ ∧
    HasValue .int16 'N'.toUInt8 ("-32,768.000".toList.map Char.toUInt8) (-32768) := by
  have hformat : tryFormat .int16 ⟨-32768, by decide⟩ (List.replicate 11 0)
      ⟨'N'.toUInt8, 3, Or.inr (by decide)⟩ =
      pure ⟨true, 11, "-32,768.000".toList.map Char.toUInt8⟩ := by
    decide
  have hparse := utf8_integers.1 _ _ _ _ _ _ hformat
  exact ⟨hparse, (utf8_integers.2 _ _ _ _ _ hparse).2.2⟩

end SharpRuntime.Analysis.Utf8IntegerText
