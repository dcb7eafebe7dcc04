import SharpRuntime.Interface.AddressForm
import SharpRuntime.Machine.Bytes

/-!
# IPv4 literals

What is accepted as an IPv4 address: each part is read up to a dot (`scanPart_iff`), and the parts
make up the address (`tryParseIPv4Groups_iff`).
-/

set_option autoImplicit false
set_option maxRecDepth 20000

namespace SharpRuntime.Analysis.AddressParts

open Machine Model Model.IPAddress Interface.AddressForm

theorem hexDigitValue_eq (c : UInt8) :
    hexDigitValue c = (digit? c).getD 255 ∧ ∀ d, digit? c = some d → d < 16 := by
  have hall : ∀ c, hexDigitValue c = (digit? c).getD 255 ∧ (digit? c).all (· < 16) := by
    decide
  refine ⟨(hall c).1, fun d hd => ?_⟩
  simpa [hd] using (hall c).2

theorem digits_nil (base : ℕ) : Digits base [] [] := ⟨rfl, nofun⟩

variable {base : ℕ} {cs : List UInt8} {ds : List ℕ}

theorem digits_cons {d : ℕ} {c : UInt8} :
    Digits base (c :: cs) (d :: ds) ↔ digit? c = some d ∧ d < base ∧ Digits base cs ds := by
  constructor
  · rintro ⟨hdigits, hlt⟩
    rw [List.map_cons, List.map_cons, List.cons.injEq] at hdigits
    exact ⟨hdigits.1, hlt d List.mem_cons_self, hdigits.2,
      fun e he => hlt e (List.mem_cons_of_mem d he)⟩
  · rintro ⟨hc, hd, hdigits, hlt⟩
    refine ⟨by rw [List.map_cons, List.map_cons, hc, hdigits], fun e he => ?_⟩
    obtain rfl | he := List.mem_cons.mp he
    · exact hd
    · exact hlt e he

theorem length_digits (h : Digits base cs ds) : cs.length = ds.length := by
  have hlength := congrArg List.length h.digits
  simpa using hlength

def Stops (rest : List UInt8) : Prop := ∀ c ∈ rest.head?, c = '.'.toUInt8

variable {rest s : List UInt8} {v : ℕ}

theorem partDigits_iff (hbase : base ≤ 16) (hrest : Stops rest) {v' : ℕ} {one one' : Bool}
    (hv : v ≤ 0xFFFFFFFF) :
    partDigits base v one s = some (v', one', rest) ↔
      ∃ cs ds, s = cs ++ rest ∧ Digits base cs ds ∧ v' = Printed.accumulate base v ds ∧
        v' ≤ 0xFFFFFFFF ∧ one' = (one || !cs.isEmpty) := by
  induction s generalizing v one with
  | nil =>
    constructor
    · intro h
      cases h
      exact ⟨[], [], rfl, digits_nil base, rfl, hv, by simp⟩
    · rintro ⟨cs, ds, hs, hcs, rfl, -, rfl⟩
      obtain ⟨rfl, rfl⟩ := List.append_eq_nil_iff.mp hs.symm
      obtain rfl : ds = [] := List.eq_nil_of_length_eq_zero (length_digits hcs).symm
      simp [partDigits]
  | cons c s ih =>
    obtain ⟨hvalue, hsmall⟩ := hexDigitValue_eq c
    simp only [partDigits]
    by_cases hstop : base ≤ hexDigitValue c
    · rw [if_pos hstop]
      constructor
      · intro h
        cases h
        exact ⟨[], [], rfl, digits_nil base, rfl, hv, by simp⟩
      · rintro ⟨cs, ds, hs, hcs, rfl, -, rfl⟩
        cases cs with
        | nil =>
          obtain rfl : ds = [] := List.eq_nil_of_length_eq_zero (length_digits hcs).symm
          simp [hs]
        | cons c' cs =>
          cases ds with
          | nil => exact absurd (length_digits hcs) (by simp)
          | cons d ds =>
            obtain ⟨hd, hlt, -⟩ := digits_cons.mp hcs
            grind
    · rw [if_neg hstop]
      obtain ⟨d, hd⟩ : ∃ d, digit? c = some d := by
        cases hdigit : digit? c with
        | some d => exact ⟨d, rfl⟩
        | none =>
          grind
      rw [hvalue, hd, Option.getD_some] at hstop ⊢
      have hdot : c ≠ '.'.toUInt8 := by
        rintro rfl
        cases hd
      -- the characters of a part that begins here
      have hcons : ∀ {P : List UInt8 → List ℕ → Prop},
          (∃ cs ds, c :: s = cs ++ rest ∧ Digits base cs ds ∧ P cs ds) ↔
            ∃ cs ds, s = cs ++ rest ∧ Digits base cs ds ∧ P (c :: cs) (d :: ds) := by
        intro P
        constructor
        · rintro ⟨cs, ds, hs, hcs, hp⟩
          cases cs with
          | nil =>
            rw [List.nil_append] at hs
            exact absurd (hrest c (by rw [← hs]; rfl)) hdot
          | cons c' cs =>
            cases ds with
            | nil => exact absurd (length_digits hcs) (by simp)
            | cons d' ds =>
              rw [List.cons_append, List.cons.injEq] at hs
              obtain ⟨rfl, hs⟩ := hs
              obtain ⟨hd', -, htail⟩ := digits_cons.mp hcs
              rw [hd] at hd'
              cases hd'
              exact ⟨cs, ds, hs, htail, hp⟩
        · rintro ⟨cs, ds, hs, hcs, hp⟩
          exact ⟨c :: cs, d :: ds, by rw [hs, List.cons_append],
            digits_cons.mpr ⟨hd, by omega, hcs⟩, hp⟩
      rw [hcons]
      by_cases hover : 0xFFFFFFFF < v * base + d
      · rw [if_pos hover]
        constructor
        · intro h
          cases h
        · rintro ⟨cs, ds, -, -, rfl, hle, -⟩
          have hgrows := Printed.le_accumulate (b := base) (by omega) (v * base + d) ds
          rw [Printed.accumulate_cons] at hle
          omega
      · rw [if_neg hover, ih (by omega)]
        simp

theorem digits_singleton_ne {x : UInt8} (hx : x = 'x'.toUInt8 ∨ x = 'X'.toUInt8) : ¬ Digits base
    (x :: cs) ds := by
  intro hcs
  cases ds with
  | nil => exact absurd (length_digits hcs) (by simp)
  | cons d ds =>
    have hd := (digits_cons.mp hcs).1
    obtain rfl | rfl := hx <;> cases hd

theorem head_ne_zero (hne : cs ≠ []) (hhead : cs.head? ≠ some '0'.toUInt8) :
    '0'.toUInt8 :: s ≠ cs ++ rest := by
  intro hs
  obtain ⟨c, cs, rfl⟩ := List.exists_cons_of_ne_nil hne
  obtain ⟨rfl, -⟩ := List.cons.inj hs
  exact hhead rfl

theorem isEmpty_of_ne (hne : cs ≠ []) : true = (false || !cs.isEmpty) := by grind

/-- A part is read exactly if it is a numeral in one of the bases, of at most 32 bits. -/
theorem scanPart_iff (hrest : Stops rest) : scanPart s = some (v, true, rest) ↔
      ∃ part, PartText part v ∧ v ≤ 0xFFFFFFFF ∧ s = part ++ rest := by
  have hzero : (0 : ℕ) ≤ 0xFFFFFFFF := Nat.zero_le _
  cases s with
  | nil =>
    constructor
    · intro h
      cases h
    · rintro ⟨part, hpart, -, hs⟩
      obtain ⟨rfl, -⟩ := List.append_eq_nil_iff.mp hs.symm
      cases hpart with
      | decimal _ hne _ => exact absurd rfl hne
  | cons c s =>
    by_cases hc : c = '0'.toUInt8
    · subst hc
      cases s with
      | nil =>
        constructor
        · intro h
          cases h
          exact ⟨['0'.toUInt8], .octal (digits_nil 8), hzero, rfl⟩
        · rintro ⟨part, hpart, -, hs⟩
          cases hpart with
          | decimal _ hne hhead => exact absurd hs (head_ne_zero hne hhead)
          | octal hcs =>
            obtain ⟨rfl, rfl⟩ := List.append_eq_nil_iff.mp (List.cons.inj hs).2.symm
            obtain rfl := List.eq_nil_of_length_eq_zero (length_digits hcs).symm
            rfl
          | hex => cases hs
      | cons x s =>
        by_cases hx : x = 'x'.toUInt8 ∨ x = 'X'.toUInt8
        · have hscan : scanPart ('0'.toUInt8 :: x :: s) = partDigits 16 0 false s := by
            rw [scanPart, numberBase, if_pos rfl, if_pos hx]
          rw [hscan, partDigits_iff (le_refl 16) hrest hzero]
          constructor
          · rintro ⟨cs, ds, rfl, hcs, rfl, hle, hone⟩
            refine ⟨_, .hex hcs ?_ hx, hle, rfl⟩
            rintro rfl
            cases hone
          · rintro ⟨part, hpart, hle, hs⟩
            cases hpart with
            | decimal _ hne hhead => exact absurd hs (head_ne_zero hne hhead)
            | @octal cs ds hcs =>
              have htail := (List.cons.inj hs).2
              cases cs with
              | nil =>
                have hdot := hrest x (by rw [show rest = x :: s from htail.symm]; rfl)
                subst hdot
                exact absurd hx (by decide)
              | cons c cs =>
                obtain ⟨rfl, -⟩ := List.cons.inj htail
                exact absurd hcs (digits_singleton_ne hx)
            | @hex y cs ds hcs hne hy =>
              have htail := (List.cons.inj (List.cons.inj hs).2).2
              exact ⟨cs, ds, htail, hcs, rfl, hle, isEmpty_of_ne hne⟩
        · have hscan : scanPart ('0'.toUInt8 :: x :: s) = partDigits 8 0 true (x :: s) := by
            rw [scanPart, numberBase, if_pos rfl, if_neg hx]
          rw [hscan, partDigits_iff (by decide) hrest hzero]
          constructor
          · rintro ⟨cs, ds, hs, hcs, rfl, hle, -⟩
            refine ⟨_, .octal hcs, hle, ?_⟩
            rw [hs]
            rfl
          · rintro ⟨part, hpart, hle, hs⟩
            cases hpart with
            | decimal _ hne hhead => exact absurd hs (head_ne_zero hne hhead)
            | @octal cs ds hcs =>
              exact ⟨cs, ds, (List.cons.inj hs).2, hcs, rfl, hle, rfl⟩
            | @hex y cs ds hcs hne hy => grind
    · have hscan : scanPart (c :: s) = partDigits 10 0 false (c :: s) := by
        grind [numberBase.eq_def, scanPart]
      rw [hscan, partDigits_iff (by decide) hrest hzero]
      constructor
      · rintro ⟨cs, ds, hs, hcs, rfl, hle, hone⟩
        have hne : cs ≠ [] := by
          rintro rfl
          cases hone
        refine ⟨cs, .decimal hcs hne ?_, hle, hs⟩
        obtain ⟨d, cs, rfl⟩ := List.exists_cons_of_ne_nil hne
        obtain ⟨rfl, -⟩ := List.cons.inj hs
        exact fun hhead => hc (Option.some.inj hhead)
      · rintro ⟨part, hpart, hle, hs⟩
        cases hpart with
        | @decimal cs ds hcs hne hhead =>
          exact ⟨part, ds, hs, hcs, rfl, hle, isEmpty_of_ne hne⟩
        | octal => exact absurd (List.cons.inj hs).1 hc
        | hex => exact absurd (List.cons.inj hs).1 hc

theorem partText_ne_nil {part : List UInt8} (h : PartText part v) : part ≠ [] := by
  cases h with
  | decimal _ hne _ => exact hne
  | octal => exact List.cons_ne_nil _ _
  | hex => exact List.cons_ne_nil _ _

theorem stops_nil : Stops [] := nofun

theorem stops_dot (s : List UInt8) : Stops ('.'.toUInt8 :: s) := by
  intro c hc
  cases hc
  rfl

/-- What the parts before the dots may be. -/
structure Octets (parts ps : List ℕ) : Prop where
  le : ∀ p ∈ ps, p ≤ 0xFF
  few : ps ≠ [] → parts.length + ps.length ≤ 3

theorem dottedText_of_scanParts {parts out : List ℕ} {last : ℕ}
    (h : scanParts parts s = some (out, last)) :
    ∃ ps, out = parts ++ ps ∧ DottedText s ps last ∧ Octets parts ps ∧ last ≤ 0xFFFFFFFF := by
  induction hlength : s.length using Nat.strong_induction_on generalizing s parts with
  | _ length ih =>
    cases s with
    | nil =>
      rw [scanParts] at h
      cases h
    | cons c s =>
      rw [scanParts] at h
      split at h
      · cases h
      · rename_i v one hpart
        split at h
        · rename_i hone
          cases h
          rw [hone] at hpart
          obtain ⟨part, htext, hle, hs⟩ := (scanPart_iff stops_nil).mp hpart
          rw [List.append_nil] at hs
          exact ⟨[], (List.append_nil _).symm, hs ▸ .last htext,
            ⟨List.forall_mem_nil _, fun hne => absurd rfl hne⟩, hle⟩
        · cases h
      · rename_i v one d rest hpart
        split at h
        · rename_i hdot
          subst hdot
          split at h
          · cases h
          · rename_i hguard
            have hone : one = true := by grind
            rw [hone] at hpart
            obtain ⟨part, htext, hle, hs⟩ := (scanPart_iff (stops_dot rest)).mp hpart
            have hshort : rest.length < length := by grind
            obtain ⟨ps, hout, hrest, hoctets, hlast⟩ := ih _ hshort h rfl
            refine ⟨v :: ps, ?_, hs ▸ .cons htext hrest, ⟨?_, fun _ => ?_⟩, hlast⟩
            · grind
            · intro p hp
              obtain rfl | hp := List.mem_cons.mp hp
              · omega
              · exact hoctets.le p hp
            · by_cases hps : ps = []
              · grind
              · have hfew := hoctets.few hps
                grind
        · cases h

theorem scanParts_of_dottedText {ps : List ℕ} {last : ℕ}
    (h : DottedText s ps last) {parts : List ℕ} (hoctets : Octets parts ps)
    (hlast : last ≤ 0xFFFFFFFF) : scanParts parts s = some (parts ++ ps, last) := by
  induction h generalizing parts with
  | @last part v hpart =>
    have hscan := (scanPart_iff stops_nil).mpr ⟨part, hpart, hlast, (List.append_nil part).symm⟩
    obtain ⟨c, part, rfl⟩ := List.exists_cons_of_ne_nil (partText_ne_nil hpart)
    rw [scanParts]
    split
    · rename_i hnone
      rw [hscan] at hnone
      cases hnone
    · rename_i hsome
      grind
    · rename_i hsome
      rw [hscan] at hsome
      cases hsome
  | @cons part s v last ps hpart hrest ih =>
    have hv : v ≤ 0xFF := hoctets.le v List.mem_cons_self
    have hscan := (scanPart_iff (stops_dot s)).mpr ⟨part, hpart, by omega, rfl⟩
    have hfew := hoctets.few (List.cons_ne_nil v ps)
    rw [List.length_cons] at hfew
    obtain ⟨c, part, rfl⟩ := List.exists_cons_of_ne_nil (partText_ne_nil hpart)
    rw [List.cons_append] at hscan ⊢
    rw [scanParts]
    split
    · rename_i hnone
      rw [hscan] at hnone
      cases hnone
    · rename_i hsome
      rw [hscan] at hsome
      cases hsome
    · rename_i hsome
      rw [hscan] at hsome
      cases hsome
      have hguard : ¬ (3 ≤ parts.length ∨ true = false ∨ 0xFF < v) := by grind
      rw [if_pos rfl, if_neg hguard, ih ⟨fun p hp => hoctets.le p (List.mem_cons_of_mem v hp), ?_⟩ hlast,
        List.append_assoc]
      · rfl
      · intro _
        simp
        omega

variable {a : ℕ}

theorem toNat_shiftLeft {n : ℕ} {k : UInt32} (hk : k.toNat = n) (hn : n < 32)
    (h : a * 2 ^ n < 2 ^ 32) : (UInt32.ofNat a <<< k).toNat = a * 2 ^ n := by
  have hpow : 0 < 2 ^ n := Nat.two_pow_pos n
  have ha : a < 2 ^ 32 := lt_of_le_of_lt (Nat.le_mul_of_pos_right a hpow) h
  rw [UInt32.toNat_shiftLeft, hk, Nat.mod_eq_of_lt hn, Nat.shiftLeft_eq, UInt32.toNat_ofNat',
    Nat.mod_eq_of_lt ha, Nat.mod_eq_of_lt h]

theorem toNat_ofNat {n : ℕ} (h : n ≤ 0xFFFFFFFF) : (UInt32.ofNat n).toNat = n := by
  rw [UInt32.toNat_ofNat', Nat.mod_eq_of_lt (by omega)]

theorem toNat_two (ha : a < 256) (hv : v < 2 ^ 24) :
    (UInt32.ofNat a <<< 24 ||| UInt32.ofNat v).toNat = a * 2 ^ 24 + v := by
  have hhigh : (UInt32.ofNat a <<< 24).toNat = a * 2 ^ 24 :=
    toNat_shiftLeft (k := 24) rfl (by decide) (by omega)
  rw [UInt32.toNat_or, hhigh, toNat_ofNat (by omega), or_add a hv]

theorem toNat_three {b : ℕ} (ha : a < 256) (hb : b < 256) (hv : v < 2 ^ 16) :
    (UInt32.ofNat a <<< 24 ||| UInt32.ofNat b <<< 16 ||| UInt32.ofNat v).toNat =
      (a * 256 + b) * 2 ^ 16 + v := by
  have hhigh : (UInt32.ofNat a <<< 24).toNat = a * 2 ^ 24 :=
    toNat_shiftLeft (k := 24) rfl (by decide) (by omega)
  have hnext : (UInt32.ofNat b <<< 16).toNat = b * 2 ^ 16 :=
    toNat_shiftLeft (k := 16) rfl (by decide) (by omega)
  rw [UInt32.toNat_or, UInt32.toNat_or, hhigh, hnext, toNat_ofNat (by omega),
    or_add a (by omega), show a * 2 ^ 24 + b * 2 ^ 16 = (a * 256 + b) * 2 ^ 16 by ring, or_add _ hv]

theorem toNat_four {b c : ℕ} (ha : a < 256) (hb : b < 256) (hc : c < 256) (hv : v < 2 ^ 8) :
    (UInt32.ofNat a <<< 24 ||| UInt32.ofNat b <<< 16 ||| UInt32.ofNat c <<< 8 |||
      UInt32.ofNat v).toNat = ((a * 256 + b) * 256 + c) * 2 ^ 8 + v := by
  have hhigh : (UInt32.ofNat a <<< 24).toNat = a * 2 ^ 24 :=
    toNat_shiftLeft (k := 24) rfl (by decide) (by omega)
  have hnext : (UInt32.ofNat b <<< 16).toNat = b * 2 ^ 16 :=
    toNat_shiftLeft (k := 16) rfl (by decide) (by omega)
  have hthird : (UInt32.ofNat c <<< 8).toNat = c * 2 ^ 8 :=
    toNat_shiftLeft (k := 8) rfl (by decide) (by omega)
  rw [UInt32.toNat_or, UInt32.toNat_or, UInt32.toNat_or, hhigh, hnext, hthird, toNat_ofNat (by omega),
    or_add a (by omega), show a * 2 ^ 24 + b * 2 ^ 16 = (a * 256 + b) * 2 ^ 16 by ring,
    or_add _ (by omega),
    show (a * 256 + b) * 2 ^ 16 + c * 2 ^ 8 = ((a * 256 + b) * 256 + c) * 2 ^ 8 by ring, or_add _ hv]

/-- What the parts of a text make.
SOURCE: IPAddressLiteral.hpp:114-132 -/
def combine (parts : List ℕ) (last : ℕ) : ℕ :=
  Printed.value 256 parts * 256 ^ (4 - parts.length) + last

/-- **What an IPv4 literal is.** -/
theorem tryParseIPv4Groups_iff {v : UInt32} : tryParseIPv4Groups s = some v ↔ Dotted s v.toNat := by
  have hparts : ∀ {parts : List ℕ} {last : ℕ}, (∀ p ∈ parts, p < 256) → parts.length ≤ 3 →
      last ≤ 0xFFFFFFFF → scanParts [] s = some (parts, last) →
        (tryParseIPv4Groups s = some v ↔
          last < 256 ^ (4 - parts.length) ∧ v.toNat = combine parts last) := by
    intro parts last hsmall hfew hlast hscan
    rw [tryParseIPv4Groups, hscan]
    obtain _ | ⟨a, _ | ⟨b, _ | ⟨c, _ | ⟨d, parts⟩⟩⟩⟩ := parts
    · have hvalue : combine [] last = last := by simp [combine, Printed.value]
      simp only [Option.some.injEq, ← UInt32.toNat_inj, toNat_ofNat hlast, hvalue]
      constructor
      · intro h
        exact ⟨by simp only [List.length_nil]; omega, h.symm⟩
      · rintro ⟨-, h⟩
        exact h.symm
    · have ha := hsmall a (by simp)
      have hvalue : combine [a] last = a * 2 ^ 24 + last := by
        simp [combine, Printed.value]
      by_cases hover : 0xFFFFFF < last
      · grind
      · simp only [if_neg hover, Option.some.injEq, ← UInt32.toNat_inj,
          toNat_two ha (show last < 2 ^ 24 by omega), hvalue, List.length_singleton]
        constructor
        · intro h
          exact ⟨by omega, h.symm⟩
        · rintro ⟨-, h⟩
          exact h.symm
    · have ha := hsmall a (by simp)
      have hb := hsmall b (by simp)
      have hvalue : combine [a, b] last = (a * 256 + b) * 2 ^ 16 + last := by
        simp [combine, Printed.value]
      by_cases hover : 0xFFFF < last
      · grind
      · simp only [if_neg hover, Option.some.injEq, ← UInt32.toNat_inj,
          toNat_three ha hb (show last < 2 ^ 16 by omega), hvalue, List.length_cons, List.length_nil]
        constructor
        · intro h
          exact ⟨by omega, h.symm⟩
        · rintro ⟨-, h⟩
          exact h.symm
    · have ha := hsmall a (by simp)
      have hb := hsmall b (by simp)
      have hc := hsmall c (by simp)
      have hvalue : combine [a, b, c] last = ((a * 256 + b) * 256 + c) * 2 ^ 8 + last := by
        simp [combine, Printed.value]
      by_cases hover : 0xFF < last
      · grind
      · simp only [if_neg hover, Option.some.injEq, ← UInt32.toNat_inj,
          toNat_four ha hb hc (show last < 2 ^ 8 by omega), hvalue, List.length_cons, List.length_nil]
        constructor
        · intro h
          exact ⟨by omega, h.symm⟩
        · rintro ⟨-, h⟩
          exact h.symm
    · grind
  constructor
  · intro h
    cases hscan : scanParts [] s with
    | none =>
      rw [tryParseIPv4Groups, hscan] at h
      cases h
    | some r =>
      obtain ⟨parts, last⟩ := r
      obtain ⟨ps, hps, htext, hoctets, hlast⟩ := dottedText_of_scanParts hscan
      subst hps
      have hsmall : ∀ p ∈ parts, p < 256 := fun p hp => Nat.lt_succ_of_le (hoctets.le p hp)
      have hfew : parts.length ≤ 3 := by
        by_cases hne : parts = []
        · rw [hne]
          exact Nat.zero_le _
        · simpa using hoctets.few hne
      obtain ⟨hlt, hv⟩ := (hparts hsmall hfew hlast hscan).mp h
      exact ⟨parts, last, htext, hfew, hsmall, hlt, hv⟩
  · rintro ⟨parts, last, htext, hfew, hsmall, hlt, hv⟩
    have hlast : last ≤ 0xFFFFFFFF := by
      have hle : 256 ^ (4 - parts.length) ≤ 256 ^ 4 := Nat.pow_le_pow_right (by decide) (by omega)
      omega
    have hscan := @scanParts_of_dottedText _ _ _ htext []
      ⟨fun p hp => Nat.le_of_lt_succ (hsmall p hp), fun _ => by simpa using hfew⟩ hlast
    exact (hparts hsmall hfew hlast hscan).mpr ⟨hlt, hv⟩

end SharpRuntime.Analysis.AddressParts

/-!
# The groups of IPv6 addresses

What is printed of the groups is their text: the zeros that are compressed are the first of the
longest runs (`compression_spec`), and the other ones stand on either side of them
(`formatIPv6_text`).
-/

namespace SharpRuntime.Analysis.AddressGroups

open Machine Model Model.IPAddress Interface.AddressForm

variable (g : UInt16) (groups : List UInt16)

theorem joined_cons : joined (g :: groups) =
      lowerHex g.toNat ++ if groups = [] then [] else ':'.toUInt8 :: joined groups := by
  cases groups with
  | nil => simp [joined]
  | cons g' groups => simp [joined, List.intercalate_cons_cons]

def following (first : Bool) (groups : List UInt16) : List UInt8 :=
  if groups = [] then [] else (if first then [] else [':'.toUInt8]) ++ joined groups

theorem following_true : following true groups = joined groups := by
  cases groups with
  | nil => rfl
  | cons g groups => rfl

theorem following_cons (first : Bool) (g : UInt16) (groups : List UInt16) :
    following first (g :: groups) =
      (if first then [] else [':'.toUInt8]) ++ lowerHex g.toNat ++ following false groups := by
  simp [following, joined_cons]

theorem groupsFrom_rest {groups : List UInt16} (hlength : groups.length = 8)
    {best : Option Compression} {i : ℕ} (hbest : ∀ c, best = some c → c.bestStart < i) (first : Bool) :
    groupsFrom groups best first i = following first (groups.drop i) := by
  induction hk : 8 - i generalizing i first with
  | zero =>
    rw [groupsFrom.eq_def, if_neg (by omega), List.drop_of_length_le (by omega)]
    rfl
  | succ k ih =>
    have hi : i < groups.length := by omega
    have hget : groups.getD i 0 = groups[i] := by
      rw [List.getD_eq_getElem?_getD, List.getElem?_eq_getElem hi, Option.getD_some]
    have hrest := ih (i := i + 1) (fun c hc => lt_trans (hbest c hc) (Nat.lt_succ_self i)) false
      (by omega)
    rw [groupsFrom.eq_def, if_pos (by omega), List.drop_eq_getElem_cons hi, following_cons, ← hget,
      hrest]
    cases best with
    | none => rfl
    | some c => grind

theorem groupsFrom_compressed {groups : List UInt16} (hlength : groups.length = 8) (c : Compression)
    (hfits : c.bestStart + c.bestLen ≤ 8) {i : ℕ} (hi : i ≤ c.bestStart) (first : Bool) :
    groupsFrom groups (some c) first i =
      following first ((groups.take c.bestStart).drop i) ++ ':'.toUInt8 :: ':'.toUInt8 ::
        joined (groups.drop (c.bestStart + c.bestLen)) := by
  have htwo := c.two_le
  induction hk : c.bestStart - i generalizing i first with
  | zero =>
    obtain rfl : i = c.bestStart := by omega
    rw [groupsFrom.eq_def, if_pos (by omega)]
    simp only [if_true]
    have hnone : (groups.take c.bestStart).drop c.bestStart = [] :=
      List.drop_of_length_le (by rw [List.length_take]; omega)
    rw [groupsFrom_rest hlength (fun c' hc' => by cases hc'; omega), following_true, hnone]
    rfl
  | succ k ih =>
    have hlt : i < (groups.take c.bestStart).length := by
      rw [List.length_take]
      omega
    have hget : groups.getD i 0 = (groups.take c.bestStart)[i] := by grind
    rw [groupsFrom.eq_def, if_pos (by omega)]
    simp only [if_neg (show i ≠ c.bestStart by omega)]
    rw [ih (by omega) false (by omega), List.drop_eq_getElem_cons hlt, following_cons, ← hget,
      List.append_assoc, List.append_assoc, List.append_assoc]

/-- The first of the longest runs of zeros is compressed, if it has two groups at least. -/
theorem compression_spec :
    (compression groups = none → ∀ start len, IsRun isZero groups start len → len < 2) ∧
      ∀ c, compression groups = some c → FirstLongest isZero groups c.bestStart c.bestLen := by
  obtain ⟨hlongest, hbest⟩ := RunScan.scan_initial isZero groups
  obtain ⟨st, hst⟩ : ∃ st, RunScan.scan isZero 0 RunScan.initial groups = st := ⟨_, rfl⟩
  have hscan : RunScan.scan (fun group => group == 0) 0 RunScan.initial groups = st := hst
  simp only [compression, hscan]
  cases hstart : st.bestStart with
  | none => grind
  | some bestStart => grind

theorem firstLongest_mapped (h : UInt16) :
    FirstLongest isZero [0, 0, 0, 0, 0, 0xFFFF, g, h] 0 5 where
  run := by
    refine ⟨by simp, fun i x _ hi hx => ?_⟩
    have hfive : i = 0 ∨ i = 1 ∨ i = 2 ∨ i = 3 ∨ i = 4 := by omega
    obtain rfl | rfl | rfl | rfl | rfl := hfive <;> (cases hx; rfl)
  longest s l hrun := by
    by_contra hmore
    have hfits := hrun.fits
    simp only [List.length_cons, List.length_nil] at hfits
    have hzero := hrun.holds 5 0xFFFF (by omega) (by omega) rfl
    cases hzero
  first _ _ := Nat.zero_le _

theorem toNat_octets : (g >>> 8).toNat = g.toNat / 256 ∧ (g &&& 0xFF).toNat = g.toNat % 256 := by
  constructor
  · exact Nat.shiftRight_eq_div_pow g.toNat 8
  · exact Nat.and_two_pow_sub_one_eq_mod g.toNat 8

/-- **What is printed is the text of the address.** -/
theorem formatIPv6_text (groups : Vector UInt16 8) (scopeId : UInt32) :
    ∃ body, IPv6Text groups.toList body ∧ formatIPv6 groups scopeId = body ++ scopeText scopeId := by
  have hscope : (if scopeId ≠ 0 then '%'.toUInt8 :: decimal scopeId.toNat else []) =
      scopeText scopeId := by grind [scopeText]
  have hlength : groups.toList.length = 8 := by simp
  have hlist : groups.toList = [groups[0], groups[1], groups[2], groups[3], groups[4], groups[5],
      groups[6], groups[7]] := toList_eq_ofFn groups
  by_cases hmapped : isMapped groups = true
  · have hparts : groups[0] = 0 ∧ groups[1] = 0 ∧ groups[2] = 0 ∧ groups[3] = 0 ∧ groups[4] = 0 ∧
        groups[5] = 0xFFFF := by
      simpa only [isMapped, Bool.and_eq_true, beq_iff_eq, and_assoc] using hmapped
    obtain ⟨h0, h1, h2, h3, h4, h5⟩ := hparts
    rw [h0, h1, h2, h3, h4, h5] at hlist
    refine ⟨_, by rw [hlist]; exact .mapped (firstLongest_mapped groups[6] groups[7]), ?_⟩
    simp only [formatIPv6, hmapped, if_true, hscope, toNat_octets]
  · have hfirst : groups.toList.take 6 ≠ [0, 0, 0, 0, 0, 0xFFFF] := by
      grind [List.cons.injEq, isMapped]
    obtain ⟨hplain, hcompressed⟩ := compression_spec groups.toList
    simp only [formatIPv6, if_neg hmapped, hscope]
    cases hc : compression groups.toList with
    | none =>
      refine ⟨joined groups.toList, .plain (hplain hc), ?_⟩
      rw [groupsFrom_rest hlength (fun c hc => by cases hc), List.drop_zero, following_true]
    | some c =>
      have hlongest := hcompressed c hc
      have hfits := hlongest.run.fits
      rw [hlength] at hfits
      refine ⟨_, .compressed hlongest c.two_le hfirst, ?_⟩
      rw [groupsFrom_compressed hlength c hfits (Nat.zero_le _), List.drop_zero, following_true]

end SharpRuntime.Analysis.AddressGroups
