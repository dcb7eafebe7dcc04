import SharpRuntime.Interface.GuidForm
import SharpRuntime.Machine.Bytes

/-!
# The components of a `Guid`

The parser of the format `X` looks for the terminator of a component, and then reads the digits in
front of it.  It succeeds exactly on the components of the format (`parseComponent_iff`), so that it
reads exactly the texts of the format (`tryParseExactX_iff`).
-/

set_option autoImplicit false
set_option maxRecDepth 20000

namespace SharpRuntime.Analysis.GuidComponents

open Machine
open Model Model.Guid Interface

variable {v : ℕ}

variable {c : UInt8}

theorem hexVal_lt (h : hexVal c = some v) : v < 16 := by
  have hall : ∀ c, (hexVal c).all (· < 16) := by decide
  grind

def digitValues (s : List UInt8) : List ℕ := s.map fun d => (hexVal d).getD 0

theorem digitValues_lt (s : List UInt8) : ∀ v ∈ digitValues s, v < 16 := by
  intro v hv
  obtain ⟨d, -, rfl⟩ := List.mem_map.mp hv
  cases hd : hexVal d with
  | none => decide
  | some v => exact hexVal_lt hd

variable {s : List UInt8}

variable {acc processedDigits : ℕ}

theorem hexRun_of_hex (h : ∀ c ∈ s, (hexVal c).isSome = true) (hacc : acc < 16 ^ processedDigits)
    (hfew : processedDigits + s.length ≤ 8) :
    hexRun acc processedDigits s = (some (Printed.accumulate 16 acc (digitValues s)), false) := by
  induction s generalizing acc processedDigits with
  | nil =>
    have hpow : 16 ^ processedDigits ≤ 16 ^ 8 := Nat.pow_le_pow_right (by decide) hfew
    rw [hexRun, Nat.mod_eq_of_lt (by omega), decide_eq_false (by simpa using hfew)]
    rfl
  | cons c s ih =>
    obtain ⟨v, hv⟩ := Option.isSome_iff_exists.mp (h c List.mem_cons_self)
    have hlt := hexVal_lt hv
    rw [List.length_cons] at hfew
    have hnext : acc * 16 + v < 16 ^ (processedDigits + 1) := by
      omega
    have hpow : 16 ^ (processedDigits + 1) ≤ 16 ^ 8 := Nat.pow_le_pow_right (by decide) (by omega)
    have hword : (acc <<< 4 ||| v) % 2 ^ 64 = acc * 16 + v := by
      rw [shiftLeft_or acc (show v < 2 ^ 4 by omega)]
      exact Nat.mod_eq_of_lt (show acc * 16 + v < 2 ^ 64 by omega)
    have hcons : digitValues (c :: s) = v :: digitValues s := by
      rw [digitValues, List.map_cons, hv]
      rfl
    rw [hexRun, hv, hcons, Printed.accumulate_cons]
    dsimp only
    rw [hword, ih (fun d hd => h d (List.mem_cons_of_mem _ hd)) hnext (by omega)]

theorem hex_of_hexRun (h : hexRun acc processedDigits s = (some v, false)) :
    (∀ c ∈ s, (hexVal c).isSome = true) ∧ processedDigits + s.length ≤ 8 := by
  induction s generalizing acc processedDigits with
  | nil => grind [hexRun]
  | cons c s ih => grind [hexRun]

theorem value_dropWhile_zero (s : List UInt8) :
    Printed.value 16 (digitValues (s.dropWhile (· == '0'.toUInt8))) =
      Printed.value 16 (digitValues s) := by
  induction s with
  | nil => rfl
  | cons c s ih =>
    by_cases hc : c = '0'.toUInt8
    · rw [List.dropWhile_cons_of_pos (by rw [hc]; rfl), ih, hc]
      simp only [digitValues, List.map_cons, Printed.value_cons]
      rw [show (hexVal '0'.toUInt8).getD 0 = 0 from rfl, Nat.zero_mul, Nat.zero_add]
    · rw [List.dropWhile_cons_of_neg (by simpa using hc)]

theorem tryParseHexRun_iff :
    tryParseHexRun s = (some v, false) ↔ s ≠ [] ∧ (∀ c ∈ s, (hexVal c).isSome = true) ∧
      (s.dropWhile (· == '0'.toUInt8)).length ≤ 8 ∧ v = Printed.value 16 (digitValues s) := by
  have hzero : ∀ c ∈ s.takeWhile (· == '0'.toUInt8), (hexVal c).isSome = true := by
    intro c hc
    have hbeq := List.mem_takeWhile_imp (p := (· == '0'.toUInt8)) hc
    rw [eq_of_beq hbeq]
    decide
  have hdigits : ∀ {u}, hexRun 0 0 (s.dropWhile (· == '0'.toUInt8)) = (some u, false) →
      u = Printed.value 16 (digitValues s) := by
    intro u hu
    obtain ⟨hall, hfew⟩ := hex_of_hexRun hu
    rw [hexRun_of_hex hall (by decide) hfew, Prod.mk.injEq, Option.some_inj] at hu
    rw [← value_dropWhile_zero, ← hu.1]
    rfl
  cases s with
  | nil => simp [tryParseHexRun]
  | cons c s =>
    rw [tryParseHexRun, List.isEmpty_cons, if_neg Bool.false_ne_true]
    constructor
    · intro h
      obtain ⟨hall, hfew⟩ := hex_of_hexRun h
      refine ⟨List.cons_ne_nil _ _, fun d hd => ?_, by omega, hdigits h⟩
      rw [← List.takeWhile_append_dropWhile (p := (· == '0'.toUInt8)) (l := c :: s),
        List.mem_append] at hd
      exact hd.elim (hzero d) (hall d)
    · rintro ⟨-, hall, hfew, rfl⟩
      rw [hexRun_of_hex (fun d hd => hall d ((List.dropWhile_sublist _).subset hd)) (by decide) (by omega),
        ← value_dropWhile_zero]
      rfl

variable {num : List UInt8}

theorem hexPrefix_eq_some : hexPrefix s = some num ↔
      ∃ x, (x = 'x'.toUInt8 ∨ x = 'X'.toUInt8) ∧ s = '0'.toUInt8 :: x :: num := by
  constructor
  · intro h
    unfold hexPrefix at h
    split at h
    · split at h
      · rename_i hx
        grind
      · cases h
    · cases h
  · rintro ⟨x, hx, rfl⟩
    exact if_pos ⟨rfl, hx⟩

variable {terminator : UInt8}

theorem takeWhile_digits (hterminator : hexVal terminator = none)
    {digits : List UInt8} (h : ∀ c ∈ digits, (hexVal c).isSome = true) (rest : List UInt8) :
    (digits ++ terminator :: rest).takeWhile (· != terminator) = digits := by
  have hne : ∀ c ∈ digits, (c != terminator) = true := by grind
  rw [List.takeWhile_append_of_pos hne, List.takeWhile_cons_of_neg (by simp), List.append_nil]

theorem split_at_terminator (h : (num.takeWhile (· != terminator)).length ≠ num.length) :
    num = num.takeWhile (· != terminator) ++
      terminator :: num.drop ((num.takeWhile (· != terminator)).length + 1) := by
  have hsplit := List.takeWhile_append_dropWhile (p := (· != terminator)) (l := num)
  cases hrest : num.dropWhile (· != terminator) with
  | nil =>
    grind
  | cons c rest =>
    have hc : c = terminator := by
      have hnot := List.head?_dropWhile_not (· != terminator) num
      rw [hrest] at hnot
      simpa using hnot
    rw [hrest, hc] at hsplit
    have hdrop : ∀ digits, digits ++ terminator :: rest = num →
        num.drop (digits.length + 1) = rest := by
      rintro digits rfl
      simp
    rw [hdrop _ hsplit]
    exact hsplit.symm

variable {rest : List UInt8}

theorem value_eq (c : GuidComponent) : c.value = Printed.value 16 (digitValues c.digits) := by
  rw [GuidComponent.value, hexDigit_eq]
  rfl

/-- **A component is read exactly if it is one of the format.** -/
theorem parseComponent_iff (hterminator : hexVal terminator = none) :
    parseComponent terminator s = .ok (v, rest) ↔
      ∃ c : GuidComponent, s = c.text ++ terminator :: rest ∧ v = c.value := by
  constructor
  · intro h
    unfold parseComponent at h
    cases hfront : hexPrefix s with
    | none =>
      rw [hfront] at h
      cases h
    | some num =>
      rw [hfront] at h
      obtain ⟨x, hx, rfl⟩ := hexPrefix_eq_some.mp hfront
      dsimp only at h
      split at h
      · cases h
      · rename_i hfound
        rw [not_or] at hfound
        cases hrun : tryParseHexRun (num.takeWhile (· != terminator)) with
        | mk value overflow =>
          rw [hrun] at h
          cases overflow with
          | true => cases value <;> cases h
          | false =>
            cases value with
            | none => cases h
            | some value =>
              simp only [Except.ok.injEq, Prod.mk.injEq] at h
              obtain ⟨rfl, rfl⟩ := h
              obtain ⟨hne, hall, hfew, rfl⟩ := tryParseHexRun_iff.mp hrun
              refine ⟨⟨x, _, hx, hne, hexDigit_eq ▸ hall, hfew⟩, ?_, by rw [value_eq]⟩
              exact congrArg ('0'.toUInt8 :: x :: ·) (split_at_terminator hfound.1)
  · rintro ⟨c, rfl, rfl⟩
    have hfront : hexPrefix (c.text ++ terminator :: rest) = some (c.digits ++ terminator :: rest) :=
      hexPrefix_eq_some.mpr ⟨c.mark, c.mark_eq, rfl⟩
    have hrun : tryParseHexRun c.digits = (some c.value, false) :=
      tryParseHexRun_iff.mpr ⟨c.ne_nil, c.isSome_hexVal, c.significant, value_eq c⟩
    rw [parseComponent, hfront]
    have hlength : ¬ (c.digits.length = (c.digits ++ terminator :: rest).length ∨
        c.digits.isEmpty = true) := by
      rw [not_or, List.isEmpty_iff, List.length_append, List.length_cons]
      exact ⟨by omega, c.ne_nil⟩
    have hdrop : (c.digits ++ terminator :: rest).drop (c.digits.length + 1) = rest := by simp
    simp only [takeWhile_digits hterminator c.isSome_hexVal rest, if_neg hlength, hrun, hdrop]

theorem bind_eq_ok {ε α β : Type} {x : Except ε α} {f : α → Except ε β} {b : β} :
    (x >>= f) = .ok b ↔ ∃ a, x = .ok a ∧ f a = .ok b := by
  cases x with
  | error e => exact ⟨nofun, fun ⟨_, h, _⟩ => nomatch h⟩
  | ok a =>
    constructor
    · exact fun h => ⟨a, rfl, h⟩
    · rintro ⟨_, h, hf⟩
      cases h
      exact hf

theorem componentsText_cons (c : GuidComponent) (cs : List GuidComponent) (rest : List UInt8) :
    componentsText (c :: cs) ++ rest =
      c.text ++ (if cs.length = 0 then '}'.toUInt8 else ','.toUInt8) ::
        (componentsText cs ++ rest) := by
  cases cs with
  | nil =>
    show c.text ++ ['}'.toUInt8] ++ rest = _
    rw [List.append_assoc]
    rfl
  | cons d cs =>
    show c.text ++ ','.toUInt8 :: componentsText (d :: cs) ++ rest = _
    rw [List.append_assoc]
    rfl

variable {vs : List ℕ}

theorem parseByteVals_iff {left : ℕ} {byteVals : List ℕ} :
    parseByteVals left byteVals s = .ok (vs, rest) ↔
      ∃ cs : List GuidComponent, cs.length = left ∧ (∀ c ∈ cs, c.value ≤ 0xFF) ∧
        s = componentsText cs ++ rest ∧ vs = byteVals ++ cs.map GuidComponent.value := by
  induction left generalizing byteVals s with
  | zero =>
    constructor
    · intro h
      cases h
      exact ⟨[], rfl, by simp, rfl, (List.append_nil _).symm⟩
    · rintro ⟨cs, hlength, -, rfl, rfl⟩
      rw [List.length_eq_zero_iff.mp hlength, List.map_nil, List.append_nil]
      rfl
  | succ left ih =>
    have hterminator : hexVal (if left = 0 then '}'.toUInt8 else ','.toUInt8) = none := by
      split <;> decide
    rw [parseByteVals, bind_eq_ok]
    constructor
    · rintro ⟨⟨v, t⟩, hcomponent, hrest⟩
      obtain ⟨c, rfl, rfl⟩ := (parseComponent_iff hterminator).mp hcomponent
      dsimp only at hrest
      split at hrest
      · cases hrest
      · rename_i hbyte
        obtain ⟨cs, hlength, hbytes, rfl, rfl⟩ := ih.mp hrest
        refine ⟨c :: cs, by rw [List.length_cons, hlength], ?_, ?_, ?_⟩
        · grind
        · rw [componentsText_cons, hlength]
        · simp
    · rintro ⟨cs, hlength, hbytes, rfl, rfl⟩
      obtain ⟨c, cs, rfl⟩ := List.exists_cons_of_length_eq_add_one hlength
      rw [List.length_cons, Nat.add_right_cancel_iff] at hlength
      refine ⟨(c.value, componentsText cs ++ rest), (parseComponent_iff hterminator).mpr
        ⟨c, by rw [componentsText_cons, hlength], rfl⟩, ?_⟩
      have hbyte := hbytes c List.mem_cons_self
      dsimp only
      rw [if_neg (by omega)]
      refine ih.mpr ⟨cs, hlength, fun d hd => hbytes d (List.mem_cons_of_mem _ hd), rfl, ?_⟩
      simp

theorem expect_eq_ok {err : String} : expect c err s = .ok rest ↔ s = c :: rest := by
  constructor
  · intro h
    unfold expect at h
    split at h
    · rename_i hhead
      cases h
      exact (List.eq_cons_of_mem_head? hhead)
    · cases h
  · rintro rfl
    exact if_pos rfl

variable {sIn : List UInt8} {bytes : Vector UInt8 16}

theorem tryParseExactX_eq_ok : tryParseExactX sIn = .ok bytes ↔
      ∃ cs : GuidComponents, stripAsciiWhitespace sIn = cs.text ∧ (∀ d ∈ cs.ds, d.value ≤ 0xFF) ∧
        bytes = bytesOf cs.a.value cs.b.value cs.c.value (cs.ds.map GuidComponent.value) := by
  have hcomma : hexVal ','.toUInt8 = none := by decide
  rw [tryParseExactX]
  simp only [bind_eq_ok, expect_eq_ok, Prod.exists, parseComponent_iff hcomma, parseByteVals_iff]
  constructor
  · rintro ⟨s₀, hs₀, va, s₁, ⟨a, rfl, rfl⟩, vb, s₂, ⟨b, rfl, rfl⟩, vc, s₃, ⟨c, rfl, rfl⟩, s₄, rfl,
      vs, s₅, ⟨ds, hlength, hbytes, rfl, rfl⟩, s₆, rfl, hend⟩
    split at hend
    · cases hend
    · rename_i hnil
      rw [not_not] at hnil
      subst hnil
      cases hend
      exact ⟨⟨a, b, c, ds, hlength⟩, hs₀, hbytes, rfl⟩
  · rintro ⟨cs, htext, hbytes, rfl⟩
    exact ⟨_, htext, _, _, ⟨cs.a, rfl, rfl⟩, _, _, ⟨cs.b, rfl, rfl⟩, _, _, ⟨cs.c, rfl, rfl⟩, _, rfl,
      _, _, ⟨cs.ds, cs.length_ds, hbytes, rfl, rfl⟩, _, rfl, rfl⟩

theorem or_word {x y z w : ℕ} (hy : y < 256) (hz : z < 256) (hw : w < 256) :
    x <<< 24 ||| y <<< 16 ||| z <<< 8 ||| w = ((x * 256 + y) * 256 + z) * 256 + w := by
  grind [shiftLeft_or]

variable (g : Guid)

theorem getAProperty_eq : g.getAProperty = (((g.bytes_.get 0).toNat * 256 +
      (g.bytes_.get 1).toNat) * 256 + (g.bytes_.get 2).toNat) * 256 + (g.bytes_.get 3).toNat :=
  or_word (UInt8.toNat_lt _) (UInt8.toNat_lt _) (UInt8.toNat_lt _)

theorem getBProperty_eq : g.getBProperty = (g.bytes_.get 4).toNat * 256 + (g.bytes_.get 5).toNat :=
  shiftLeft_or _ (UInt8.toNat_lt _)

theorem getCProperty_eq : g.getCProperty = (g.bytes_.get 6).toNat * 256 + (g.bytes_.get 7).toNat :=
  shiftLeft_or _ (UInt8.toNat_lt _)

theorem toList_eq (v : Vector UInt8 16) :
    v.toList = [v.get 0, v.get 1, v.get 2, v.get 3, v.get 4, v.get 5, v.get 6, v.get 7, v.get 8,
      v.get 9, v.get 10, v.get 11, v.get 12, v.get 13, v.get 14, v.get 15] :=
  toList_eq_ofFn v

theorem eq_of_parts {g g' : Guid} (ha : g.getAProperty = g'.getAProperty)
    (hb : g.getBProperty = g'.getBProperty) (hc : g.getCProperty = g'.getCProperty)
    (hlast : (g.bytes_.toList.drop 8).map UInt8.toNat = (g'.bytes_.toList.drop 8).map UInt8.toNat) :
    g = g' := by
  obtain ⟨v⟩ := g
  obtain ⟨v'⟩ := g'
  have hlt : ∀ (w : Vector UInt8 16) (i : Fin 16), (w.get i).toNat < 256 :=
    fun w i => UInt8.toNat_lt _
  rw [getAProperty_eq, getAProperty_eq] at ha
  rw [getBProperty_eq, getBProperty_eq] at hb
  rw [getCProperty_eq, getCProperty_eq] at hc
  rw [toList_eq, toList_eq] at hlast
  simp only [List.drop_succ_cons, List.drop_zero, List.map_cons, List.map_nil, List.cons.injEq,
    and_true] at hlast
  have hfirst : (v.get 0).toNat = (v'.get 0).toNat ∧ (v.get 1).toNat = (v'.get 1).toNat ∧
      (v.get 2).toNat = (v'.get 2).toNat ∧ (v.get 3).toNat = (v'.get 3).toNat := by grind
  have hmiddle : (v.get 4).toNat = (v'.get 4).toNat ∧ (v.get 5).toNat = (v'.get 5).toNat ∧
      (v.get 6).toNat = (v'.get 6).toNat ∧ (v.get 7).toNat = (v'.get 7).toNat := by grind
  obtain ⟨h0, h1, h2, h3⟩ := hfirst
  obtain ⟨h4, h5, h6, h7⟩ := hmiddle
  obtain ⟨h8, h9, h10, h11, h12, h13, h14, h15⟩ := hlast
  refine congrArg Guid.mk (Vector.ext fun i hi => UInt8.toNat_inj.mp ?_)
  interval_cases i <;> assumption

theorem last_bytesOf (a b c : ℕ) (h : vs.length = 8) :
    ((bytesOf a b c vs).toList.drop 8).map UInt8.toNat =
      vs.map fun v => (UInt8.ofNat v).toNat := by
  match vs, h with
  | [v0, v1, v2, v3, v4, v5, v6, v7], _ => rfl

theorem bytesOf_parts {a b c : ℕ} (ha : a < 2 ^ 32) (hlength : vs.length = 8)
    (hvs : ∀ v ∈ vs, v ≤ 0xFF) :
    let g : Guid := ⟨bytesOf a b c vs⟩
    g.getAProperty = a ∧ g.getBProperty = b % 2 ^ 16 ∧ g.getCProperty = c % 2 ^ 16 ∧
      (g.bytes_.toList.drop 8).map UInt8.toNat = vs := by
  have hlow : ∀ n : ℕ, (UInt8.ofNat (n &&& 0xFF)).toNat = n % 256 := by
    intro n
    have h := byte_of_mask n 0
    rwa [Nat.shiftRight_zero, Nat.pow_zero, Nat.div_one] at h
  have hhalf : ∀ n : ℕ, n &&& 0xFFFF = n % 2 ^ 16 := fun n => Nat.and_two_pow_sub_one_eq_mod n 16
  intro g
  refine ⟨?_, ?_, ?_, ?_⟩
  · rw [getAProperty_eq]
    show (((UInt8.ofNat (a >>> 24 &&& 0xFF)).toNat * 256 + (UInt8.ofNat (a >>> 16 &&& 0xFF)).toNat) *
      256 + (UInt8.ofNat (a >>> 8 &&& 0xFF)).toNat) * 256 + (UInt8.ofNat (a &&& 0xFF)).toNat = a
    rw [byte_of_mask, byte_of_mask, byte_of_mask, hlow]
    omega
  · rw [getBProperty_eq]
    show (UInt8.ofNat ((b &&& 0xFFFF) >>> 8 &&& 0xFF)).toNat * 256 +
      (UInt8.ofNat ((b &&& 0xFFFF) &&& 0xFF)).toNat = _
    rw [byte_of_mask, hlow, hhalf]
    omega
  · rw [getCProperty_eq]
    show (UInt8.ofNat ((c &&& 0xFFFF) >>> 8 &&& 0xFF)).toNat * 256 +
      (UInt8.ofNat ((c &&& 0xFFFF) &&& 0xFF)).toNat = _
    rw [byte_of_mask, hlow, hhalf]
    omega
  · have hbyte : ∀ v ∈ vs, (UInt8.ofNat v).toNat = v := by
      intro v hv
      have hle := hvs v hv
      rw [UInt8.toNat_ofNat', Nat.mod_eq_of_lt (by omega)]
    rw [last_bytesOf a b c hlength, List.map_congr_left hbyte, List.map_id']

theorem value_lt (c : GuidComponent) : c.value < 2 ^ 32 := by
  have hlt := Printed.value_lt (digitValues_lt (c.digits.dropWhile (· == '0'.toUInt8)))
  have hpow : 16 ^ (digitValues (c.digits.dropWhile (· == '0'.toUInt8))).length ≤ 16 ^ 8 := by
    rw [digitValues, List.length_map]
    exact Nat.pow_le_pow_right (by decide) c.significant
  rw [value_dropWhile_zero, ← value_eq] at hlt
  exact lt_of_lt_of_le hlt hpow

theorem xForm_iff {s : List UInt8} {g : Guid} : XForm s g ↔
    ∃ cs : GuidComponents, stripAsciiWhitespace s = cs.text ∧ cs.Denotes g := by
  have hall : ∀ c, (!isAsciiWhitespace c) = decide (c ∉ Printed.blanks.map Char.toUInt8) := by decide
  rw [XForm, stripAsciiWhitespace, List.filter_congr fun c _ => hall c]

/-- **The parser of the format `X` reads exactly the texts of the format.** -/
theorem tryParseExactX_iff :
    tryParseExactX sIn = .ok bytes ↔ XForm sIn ⟨bytes⟩ := by
  rw [tryParseExactX_eq_ok, xForm_iff]
  have hmap : ∀ cs : SharpRuntime.Interface.GuidComponents,
      (cs.ds.map GuidComponent.value).length = 8 := fun cs => by rw [List.length_map, cs.length_ds]
  constructor
  · rintro ⟨cs, htext, hbytes, rfl⟩
    obtain ⟨ha, hb, hc, hlast⟩ := bytesOf_parts (a := cs.a.value) (b := cs.b.value)
      (c := cs.c.value) (value_lt cs.a) (hmap cs) (by simpa using hbytes)
    exact ⟨cs, htext, ha, hb, hc, hlast⟩
  · rintro ⟨cs, htext, hdenotes⟩
    have hbytes : ∀ d ∈ cs.ds, d.value ≤ 0xFF := by
      intro d hd
      have hmem := List.mem_map_of_mem (f := GuidComponent.value) hd
      rw [← hdenotes.last] at hmem
      obtain ⟨b, -, hb⟩ := List.mem_map.mp hmem
      have hlt := UInt8.toNat_lt b
      omega
    obtain ⟨ha, hb, hc, hlast⟩ := bytesOf_parts (a := cs.a.value) (b := cs.b.value)
      (c := cs.c.value) (value_lt cs.a) (hmap cs) (by simpa using hbytes)
    refine ⟨cs, htext, hbytes, congrArg Guid.bytes_ (eq_of_parts (g := ⟨bytes⟩) ?_ ?_ ?_ ?_)⟩
    · exact hdenotes.first.trans ha.symm
    · exact hdenotes.second.trans hb.symm
    · exact hdenotes.third.trans hc.symm
    · exact hdenotes.last.trans hlast.symm

end SharpRuntime.Analysis.GuidComponents
