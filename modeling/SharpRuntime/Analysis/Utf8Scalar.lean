import SharpRuntime.Machine.Utf8
import SharpRuntime.Model.Utf8Scalar

/-!
# The decoders and the encoder of scalars agree

`tryDecodeUtf8Scalar` masks the first byte and tests the number it gets; `decodeUtf8` looks the
byte up in a table and loops.  Both read what `Utf8.read?` reads, which is what `appendUtf8Scalar`
writes.
-/

set_option autoImplicit false
set_option maxRecDepth 20000

namespace SharpRuntime.Analysis.Utf8Scalar

open Machine Machine.Utf8 Model Model.Utf8Scalar

variable (b : UInt8) (p : ℕ)

theorem toNat_and_mask {m : UInt8} {w : ℕ} (hm : m.toNat = 2 ^ w - 1) :
    (b &&& m).toNat = b.toNat % 2 ^ w := by
  rw [UInt8.toNat_and, hm, Nat.and_two_pow_sub_one_eq_mod]

theorem toNat_and_3F : (b &&& 0x3F).toNat = b.toNat % 64 :=
  toNat_and_mask b (w := 6) rfl

theorem isContinuation_eq : isContinuation b = decide (IsTail b) := by
  revert b
  decide

theorem mask_C0_iff : b &&& 0xC0 = 0x80 ↔ IsTail b := by
  have h := isContinuation_eq b
  rw [isContinuation, decide_eq_decide] at h
  exact h

theorem mask_E0_iff : b &&& 0xE0 = 0xC0 ↔ 0xC0 ≤ b.toNat ∧ b.toNat < 0xE0 := by
  revert b
  decide

theorem mask_F0_iff : b &&& 0xF0 = 0xE0 ↔ 0xE0 ≤ b.toNat ∧ b.toNat < 0xF0 := by
  revert b
  decide

theorem mask_F8_iff : b &&& 0xF8 = 0xF0 ↔ 0xF0 ≤ b.toNat ∧ b.toNat < 0xF8 := by
  revert b
  decide

theorem lt_iff_toNat (m : UInt8) : b < m ↔ b.toNat < m.toNat := UInt8.lt_iff_toNat_lt

variable {q : ℕ}

theorem fields_two (hq : q < 64) : p <<< 6 ||| q = p * 64 + q :=
  shiftLeft_or (w := 6) p hq

theorem fields_three {r : ℕ} (hq : q < 64) (hr : r < 64) :
    p <<< 12 ||| q <<< 6 ||| r = (p * 64 + q) * 64 + r := by grind [shiftLeft_or, fields_two]

theorem fields_four {r t : ℕ} (hq : q < 64) (hr : r < 64) (ht : t < 64) :
    p <<< 18 ||| q <<< 12 ||| r <<< 6 ||| t = ((p * 64 + q) * 64 + r) * 64 + t := by
  grind [shiftLeft_or, fields_three]

theorem ofNat_or_tail (c : ℕ) : UInt8.ofNat (0x80 ||| c &&& 0x3F) = tailOf c := by
  have hmask : c &&& 0x3F = c % 64 := Nat.and_two_pow_sub_one_eq_mod c 6
  have hor : 0x80 ||| c % 64 = 0x80 + c % 64 :=
    or_add (w := 7) 1 (by omega)
  rw [hmask, hor, tailOf]

theorem appendUtf8Scalar_eq (out : List UInt8) {c : ℕ} (hc : c < 0x110000) :
    appendUtf8Scalar out c = out ++ utf8.encode c := by
  change appendUtf8Scalar out c = out ++ encode c
  unfold appendUtf8Scalar
  simp only [ofNat_or_tail, Nat.shiftRight_eq_div_pow, List.append_assoc, List.singleton_append]
  split
  case isTrue h1 => rw [encode_one h1]
  case isFalse h1 =>
    split
    case isTrue h2 =>
      have hlead : 0xC0 ||| c / 2 ^ 6 = 0xC0 + c / 64 := or_add (w := 6) 3 (by omega)
      rw [encode_two (by omega) h2, hlead]
    case isFalse h2 =>
      split
      case isTrue h3 =>
        have hlead : 0xE0 ||| c / 2 ^ 12 = 0xE0 + c / 4096 := or_add (w := 4) 14 (by omega)
        rw [encode_three (by omega) h3, hlead]
        rfl
      case isFalse h3 =>
        have hlead : 0xF0 ||| c / 2 ^ 18 = 0xF0 + c / 262144 := or_add (w := 4) 15 (by omega)
        rw [encode_four (by omega), hlead]
        rfl

section Window

variable {s : List UInt8} {size : ℕ}

theorem tails?_window (hsize : size ≤ s.length) (n acc i : ℕ) :
    tails? (n + 1) acc (window s size i) =
      if i < size ∧ IsTail (s.getD i 0) then
        tails? n (acc * 64 + (s.getD i 0).toNat % 64) (window s size (i + 1))
      else none := by
  by_cases hi : i < size
  · rw [window_cons hsize hi 0, tails?]
    simp only [hi, true_and]
  · rw [window_nil hsize hi, if_neg (fun h => hi h.1)]
    rfl

theorem tails?_window_two (hsize : size ≤ s.length) (acc i : ℕ) :
    tails? 2 acc (window s size i) =
      if i + 1 < size ∧ IsTail (s.getD i 0) ∧ IsTail (s.getD (i + 1) 0) then
        some ((acc * 64 + (s.getD i 0).toNat % 64) * 64 + (s.getD (i + 1) 0).toNat % 64)
      else none := by
  rw [tails?_window hsize, tails?_window hsize, tails?]
  by_cases h1 : i < size ∧ IsTail (s.getD i 0)
  · grind
  · rw [if_neg h1, if_neg (fun h => h1 ⟨by omega, h.2.1⟩)]

theorem tails?_window_three (hsize : size ≤ s.length) (acc i : ℕ) :
    tails? 3 acc (window s size i) =
      if i + 2 < size ∧ IsTail (s.getD i 0) ∧ IsTail (s.getD (i + 1) 0) ∧
          IsTail (s.getD (i + 2) 0) then
        some (((acc * 64 + (s.getD i 0).toNat % 64) * 64 + (s.getD (i + 1) 0).toNat % 64) * 64 +
          (s.getD (i + 2) 0).toNat % 64)
      else none := by
  rw [tails?_window hsize, tails?_window_two hsize]
  by_cases h1 : i < size ∧ IsTail (s.getD i 0)
  · grind
  · rw [if_neg h1, if_neg (fun h => h1 ⟨by omega, h.2.1⟩)]

end Window

/-- A step of a decoder does what `read?` says: it reports the scalar that is read, or none and
some bytes that are there. -/
def Follows (w : List UInt8) (step : Step) : Prop :=
  (∃ c n, utf8.read? w = some (c, n) ∧ step = ⟨some c, n⟩) ∨
    (utf8.read? w = none ∧ step.codePoint = none ∧ 0 < step.length ∧ step.length ≤ w.length)

variable {w : List UInt8}

theorem follows_none (hread : utf8.read? w = none) (hw : 0 < w.length) : Follows w ⟨none, 1⟩ :=
  Or.inr ⟨hread, rfl, Nat.one_pos, hw⟩

theorem follows_accept {cp minimum len : ℕ}
    (hread : utf8.read? w = if minimum ≤ cp ∧ Scalar cp then some (cp, len) else none)
    (hpos : 0 < len) (hlen : len ≤ w.length) :
    Follows w (if cp < minimum then ⟨none, 1⟩ else accept cp len) := by
  split
  case isTrue hlow =>
    rw [if_neg (fun h => by omega)] at hread
    exact follows_none hread (by omega)
  case isFalse hmin =>
    rw [accept]
    split
    case isTrue hbad =>
      rw [if_neg (fun h => not_scalar_iff.mpr hbad h.2)] at hread
      exact Or.inr ⟨hread, rfl, hpos, hlen⟩
    case isFalse hgood =>
      have hscalar : Scalar cp := not_not.mp (fun h => hgood (not_scalar_iff.mp h))
      rw [if_pos ⟨by omega, hscalar⟩] at hread
      exact Or.inl ⟨cp, len, hread, rfl⟩

variable {s : List UInt8} {i : ℕ}

theorem tryDecodeUtf8Scalar_follows {size : ℕ} (hi : i < size)
    (hsize : size ≤ s.length) : Follows (window s size i) (tryDecodeUtf8Scalar s size i) := by
  have hlength := length_window hsize i
  have hread : utf8.read? (window s size i) = (lead? (s.getD i 0)).bind fun lead =>
      (tails? lead.tails lead.payload (window s size (i + 1))).bind fun c =>
        if lead.minimum ≤ c ∧ Scalar c then some (c, lead.tails + 1) else none := by
    rw [window_cons hsize hi 0, read?_cons]
  have hpos : 0 < (window s size i).length := by omega
  have h0 := (s.getD i 0).toNat_lt
  simp only [tryDecodeUtf8Scalar, isContinuation_eq, decide_eq_true_eq, mask_E0_iff, mask_F0_iff,
    mask_F8_iff, lt_iff_toNat, toNat_and_3F, toNat_and_mask _ (w := 5) (m := 0x1F) rfl,
    toNat_and_mask _ (w := 4) (m := 0x0F) rfl, toNat_and_mask _ (w := 3) (m := 0x07) rfl,
    UInt8.reduceToNat]
  generalize s.getD i 0 = c0 at hread h0 ⊢
  by_cases h1 : c0.toNat < 0x80
  · rw [lead?, if_pos h1, Option.bind_some, tails?, Option.bind_some] at hread
    rw [if_pos h1]
    have h := follows_accept hread Nat.one_pos hpos
    rwa [if_neg (Nat.not_lt_zero _)] at h
  · rw [if_neg h1]
    by_cases h2 : c0.toNat < 0xC0
    · rw [lead?, if_neg h1, if_pos h2] at hread
      rw [if_neg (by omega), if_neg (by omega), if_neg (by omega)]
      exact follows_none hread hpos
    · by_cases h3 : c0.toNat < 0xE0
      · have hp : c0.toNat % 2 ^ 5 = c0.toNat - 0xC0 := by omega
        rw [lead?, if_neg h1, if_neg h2, if_pos h3, Option.bind_some, tails?_window hsize] at hread
        by_cases hshape : i + 1 < size ∧ IsTail (s.getD (i + 1) 0)
        · rw [if_pos hshape, tails?, Option.bind_some] at hread
          rw [if_pos ⟨⟨by omega, h3⟩, hshape⟩, fields_two _ (by omega), hp]
          exact follows_accept hread (by decide) (by rw [hlength]; omega)
        · grind [follows_none]
      · by_cases h4 : c0.toNat < 0xF0
        · have hp : c0.toNat % 2 ^ 4 = c0.toNat - 0xE0 := by omega
          rw [lead?, if_neg h1, if_neg h2, if_neg h3, if_pos h4, Option.bind_some,
            tails?_window_two hsize] at hread
          rw [if_neg (by omega)]
          by_cases hshape : i + 2 < size ∧ IsTail (s.getD (i + 1) 0) ∧ IsTail (s.getD (i + 2) 0)
          · rw [if_pos hshape, Option.bind_some] at hread
            rw [if_pos ⟨⟨by omega, h4⟩, hshape⟩, fields_three _ (by omega) (by omega), hp]
            exact follows_accept hread (by decide) (by rw [hlength]; omega)
          · grind [follows_none]
        · rw [if_neg (by omega), if_neg (by omega)]
          by_cases h5 : c0.toNat < 0xF8
          · have hp : c0.toNat % 2 ^ 3 = c0.toNat - 0xF0 := by omega
            rw [lead?, if_neg h1, if_neg h2, if_neg h3, if_neg h4, if_pos h5, Option.bind_some,
              tails?_window_three hsize] at hread
            by_cases hshape : i + 3 < size ∧ IsTail (s.getD (i + 1) 0) ∧
                IsTail (s.getD (i + 2) 0) ∧ IsTail (s.getD (i + 3) 0)
            · rw [if_pos hshape, Option.bind_some] at hread
              rw [if_pos ⟨⟨by omega, h5⟩, hshape⟩,
                fields_four _ (by omega) (by omega) (by omega), hp]
              exact follows_accept hread (by decide) (by rw [hlength]; omega)
            · grind [follows_none]
          · rw [lead?, if_neg h1, if_neg h2, if_neg h3, if_neg h4, if_neg h5] at hread
            rw [if_neg (by omega)]
            exact follows_none hread hpos

theorem continuations_eq (count scalar : ℕ) (data : List UInt8) :
    continuations count scalar data = tails? count scalar data := by
  induction count generalizing scalar data with
  | zero => rfl
  | succ count ih =>
    cases data with
    | nil => rfl
    | cons bi data =>
      rw [continuations, tails?, ite_not]
      simp only [mask_C0_iff, toNat_and_3F]
      rw [fields_two _ (Nat.mod_lt _ (by decide)), ih]

def decoded : Option (ℕ × ℕ) → Utf8Decoded
  | some (c, n) => ⟨c, n, true⟩
  | none => ⟨0, 1, false⟩

theorem decodeLong_eq (b0 : UInt8) (data : List UInt8) (tails scalar minimum : ℕ) :
    decodeLong (b0 :: data) (tails + 1) scalar minimum =
      decoded ((tails? tails scalar data).bind fun c =>
        if minimum ≤ c ∧ Scalar c then some (c, tails + 1) else none) := by
  rw [decodeLong, Nat.add_sub_cancel, List.drop_one, List.tail_cons, continuations_eq]
  cases htails : tails? tails scalar data with
  | none => exact ite_self _
  | some c =>
    have hlength := le_length_of_tails? htails
    rw [if_neg (by rw [List.length_cons]; omega), Option.bind_some]
    dsimp only
    by_cases hmin : minimum ≤ c
    · rw [if_neg (by omega)]
      by_cases hscalar : Scalar c
      · have hgood := not_not.mpr hscalar
        rw [not_scalar_iff] at hgood
        rw [if_neg (fun h => hgood (Or.inr h)), if_neg (fun h => hgood (Or.inl h)),
          if_pos ⟨hmin, hscalar⟩]
        rfl
      · have hnone : ¬ (minimum ≤ c ∧ Scalar c) := fun h => hscalar h.2
        rw [if_neg hnone]
        rcases not_scalar_iff.mp hscalar with hlarge | hsurrogate
        · rw [if_pos hlarge]
          exact ite_self _
        · rw [if_pos hsurrogate]
          rfl
    · rw [if_pos (by omega), if_neg (fun h => hmin h.1)]
      rfl

theorem decodeUtf8_eq {data : List UInt8} (h : data ≠ []) :
    decodeUtf8 data = decoded (utf8.read? data) := by
  cases data with
  | nil => exact absurd rfl h
  | cons b0 data =>
    simp only [decodeUtf8, lt_iff_toNat, UInt8.reduceToNat, read?_cons, decodeLong_eq b0 data 1,
      decodeLong_eq b0 data 2, decodeLong_eq b0 data 3, toNat_and_mask _ (w := 5) (m := 0x1F) rfl,
      toNat_and_mask _ (w := 4) (m := 0x0F) rfl, toNat_and_mask _ (w := 3) (m := 0x07) rfl]
    by_cases h1 : b0.toNat < 0x80
    · have hscalar : Scalar b0.toNat := Or.inl (by omega)
      rw [if_pos h1, lead?, if_pos h1, Option.bind_some, tails?, Option.bind_some,
        if_pos ⟨Nat.zero_le _, hscalar⟩]
      rfl
    · rw [if_neg h1, lead?, if_neg h1]
      by_cases h2 : b0.toNat < 0xC0
      · rw [if_pos (by omega), if_pos h2]
        rfl
      · rw [if_neg h2]
        by_cases h3 : b0.toNat < 0xE0
        · have hp : b0.toNat % 2 ^ 5 = b0.toNat - 0xC0 := by omega
          rw [if_pos h3, if_pos h3, hp]
          by_cases hover : b0.toNat < 0xC2
          · -- every number behind these two bytes is short enough for one
            rw [if_pos hover, Option.bind_some]
            cases htails : tails? 1 (b0.toNat - 0xC0) data with
            | none => rfl
            | some c =>
              obtain ⟨-, hlt⟩ := le_of_tails? htails
              rw [Option.bind_some, if_neg (fun h => by have := h.1; dsimp only at this; omega)]
              rfl
          · rw [if_neg hover]
            rfl
        · rw [if_neg (by omega), if_neg h3, if_neg h3]
          by_cases h4 : b0.toNat < 0xF0
          · grind
          · rw [if_neg h4, if_neg h4]
            by_cases h5 : b0.toNat < 0xF8
            · have hp : b0.toNat % 2 ^ 3 = b0.toNat - 0xF0 := by omega
              rw [if_pos h5, hp]
              by_cases hmax : b0.toNat < 0xF5
              · rw [if_pos hmax]
                rfl
              · -- every number behind these three bytes is too large
                rw [if_neg hmax, Option.bind_some]
                cases htails : tails? 3 (b0.toNat - 0xF0) data with
                | none => rfl
                | some c =>
                  obtain ⟨hle, -⟩ := le_of_tails? htails
                  rw [Option.bind_some,
                    if_neg (fun h => by have := h.2.lt; omega)]
                  rfl
            · rw [if_neg (by omega), if_neg h5]
              rfl

theorem decodeUtf8Scalar_eq (hi : i < s.length) :
    decodeUtf8Scalar s i = (utf8.read? (s.drop i)).getD (0xFFFD, 1) := by
  have hwindow : window s s.length i = s.drop i := by rw [window, List.take_length]
  have hfollows := tryDecodeUtf8Scalar_follows hi le_rfl
  rw [hwindow] at hfollows
  rw [decodeUtf8Scalar]
  rcases hfollows with ⟨c, n, hread, hstep⟩ | ⟨hread, hstep, -⟩
  · rw [hstep, hread]
    rfl
  · grind

theorem decodeUtf8Scalar_advances (hi : i < s.length) :
    0 < (decodeUtf8Scalar s i).2 ∧ i + (decodeUtf8Scalar s i).2 ≤ s.length := by
  rw [decodeUtf8Scalar_eq hi]
  cases hread : utf8.read? (s.drop i) with
  | none => exact ⟨Nat.one_pos, hi⟩
  | some r =>
    obtain ⟨hpos, hle⟩ := utf8.length_of_read? hread
    grind

theorem replaced_drop (hi : i < s.length) : utf8.replaced 0 (s.drop i) =
      (decodeUtf8Scalar s i).1 :: utf8.replaced 0 (s.drop (i + (decodeUtf8Scalar s i).2)) := by
  have hne : s.drop i ≠ [] := by
    rw [Ne, List.drop_eq_nil_iff]
    omega
  rw [utf8.replaced_step 0 hne, List.drop_drop, decodeUtf8Scalar_eq hi]
  rfl

theorem decodeLoop_drop {σ : Type} (s : List UInt8) (visit : σ → ℕ → Run Exception σ) (state : σ)
    {fuel i : ℕ} (hle : i ≤ s.length) (hfuel : s.length - i ≤ fuel) :
    Prod.snd <$> Run.whileLoop (fun p : ℕ × σ => decide (p.1 < s.length))
      (fun p => do
        let (codePoint, length) := decodeUtf8Scalar s p.1
        let state ← visit p.2 codePoint
        pure (p.1 + length, state))
      fuel (i, state) = (utf8.replaced 0 (s.drop i)).foldlM visit state := by
  have hend : ∀ state : σ, decide ((s.length, state).1 < s.length) = false :=
    fun _ => decide_eq_false (Nat.lt_irrefl _)
  induction fuel generalizing i state with
  | zero =>
    obtain rfl : i = s.length := by omega
    simp [Run.whileLoop, utf8.replaced_nil 0]
  | succ fuel ih =>
    by_cases hi : i < s.length
    · obtain ⟨hpos, hnext⟩ := decodeUtf8Scalar_advances hi
      have hcond : decide ((i, state).1 < s.length) = true := decide_eq_true hi
      rw [replaced_drop hi, List.foldlM_cons]
      simp only [Run.whileLoop, hcond, if_true, bind_assoc, pure_bind, map_bind]
      exact bind_congr fun state => ih state hnext (by omega)
    · obtain rfl : i = s.length := by omega
      simp [Run.whileLoop, utf8.replaced_nil 0]

theorem decodeLoop_eq {σ : Type} (s : List UInt8) (visit : σ → ℕ → Run Exception σ) (state : σ) :
    decodeLoop s visit state = (utf8.replaced 0 s).foldlM visit state :=
  decodeLoop_drop s visit state (Nat.zero_le _) (Nat.sub_le _ _)

theorem decodeString_eq (s : List UInt8) : decodeString s = pure (utf8.replaced 0 s) := by
  have hfold : ∀ (cs decoded : List ℕ),
      (cs.foldlM (fun decoded c => pure (decoded ++ [c])) decoded : Run Exception (List ℕ)) =
        pure (decoded ++ cs) := by
    intro cs
    induction cs with
    | nil =>
      intro decoded
      rw [List.append_nil]
      rfl
    | cons c cs ih => grind
  rw [decodeString, decodeLoop_eq, hfold, List.nil_append]

theorem foldl_appendUtf8Scalar {cs : List ℕ} (h : ∀ c ∈ cs, Scalar c) (out : List UInt8) :
    cs.foldl appendUtf8Scalar out = out ++ utf8.encodeAll cs := by
  induction cs generalizing out with
  | nil => exact (List.append_nil out).symm
  | cons c cs ih =>
    have hc := h c List.mem_cons_self
    rw [List.foldl_cons, ih (fun d hd => h d (List.mem_cons_of_mem c hd)),
      appendUtf8Scalar_eq out hc.lt, utf8.encodeAll_cons, List.append_assoc]

theorem accepts_iff {size : ℕ} (hi : i < size) (hsize : size ≤ s.length) (c n : ℕ) :
    (tryDecodeUtf8Scalar s size i = ⟨some c, n⟩ ↔ utf8.read? (window s size i) = some (c, n)) ∧
      (decodeUtf8 (window s size i) = ⟨c, n, true⟩ ↔ utf8.read? (window s size i) = some (c, n)) := by
  have hne : window s size i ≠ [] := by
    rw [window_cons hsize hi 0]
    exact List.cons_ne_nil _ _
  refine ⟨?_, ?_⟩
  · rcases tryDecodeUtf8Scalar_follows hi hsize with ⟨d, m, hread, hstep⟩ | ⟨hread, hstep, -⟩
    · rw [hread, hstep, Step.mk.injEq, Option.some.injEq, Option.some.injEq, Prod.mk.injEq]
    · grind
  · rw [decodeUtf8_eq hne]
    cases hread : utf8.read? (window s size i) with
    | none =>
      constructor
      · intro h
        cases h
      · intro h
        cases h
    | some r => grind [decoded]

theorem exists_read?_iff {n : ℕ} :
    (∃ c, utf8.read? w = some (c, n)) ↔ n ≤ w.length ∧ Admitted (w.take n) := by
  constructor
  · rintro ⟨c, hread⟩
    exact ⟨(utf8.length_of_read? hread).2, admitted_of_read? hread⟩
  · rintro ⟨hle, hadmitted⟩
    obtain ⟨c, hc, htake⟩ := admitted_iff.mp hadmitted
    have hlength : n = (utf8.encode c).length := by
      rw [← htake, List.length_take, Nat.min_eq_left hle]
    refine ⟨c, utf8.read?_eq_some_iff.mpr ⟨hc, hlength, w.drop n, ?_⟩⟩
    rw [← htake, List.take_append_drop]

/-- **The scalar codec**: the two decoders accept the same bytes, those of RFC 3629, with the same
scalar and length; the encoder writes those bytes, and they are read back; every step goes on by at
least one byte and not past the end, and a whole string comes back from its scalars when it is
well-formed, and only then. -/
theorem utf8_scalar_codec :
    (∀ (s : List UInt8) (size i : ℕ), i < size → size ≤ s.length →
      (∀ c n, tryDecodeUtf8Scalar s size i = ⟨some c, n⟩ ↔
        decodeUtf8 (window s size i) = ⟨c, n, true⟩) ∧
      (∀ n, (∃ c, tryDecodeUtf8Scalar s size i = ⟨some c, n⟩) ↔
        n ≤ (window s size i).length ∧ Admitted ((window s size i).take n)) ∧
      (∀ c n, tryDecodeUtf8Scalar s size i = ⟨some c, n⟩ →
        ∀ out, appendUtf8Scalar out c = out ++ (window s size i).take n) ∧
      (0 < (tryDecodeUtf8Scalar s size i).length ∧
        i + (tryDecodeUtf8Scalar s size i).length ≤ size) ∧
      (0 < (decodeUtf8 (window s size i)).length ∧
        i + (decodeUtf8 (window s size i)).length ≤ size)) ∧
    (∀ c, Scalar c → ∀ pre post,
      tryDecodeUtf8Scalar (appendUtf8Scalar pre c ++ post) (appendUtf8Scalar pre c ++ post).length
          pre.length = ⟨some c, (appendUtf8Scalar [] c).length⟩ ∧
        decodeUtf8 (appendUtf8Scalar [] c ++ post) = ⟨c, (appendUtf8Scalar [] c).length, true⟩) ∧
    (∀ (s : List UInt8) (i : ℕ), i < s.length →
      0 < (decodeUtf8Scalar s i).2 ∧ i + (decodeUtf8Scalar s i).2 ≤ s.length) ∧
    ∀ s : List UInt8, ∃ scalars, decodeString s = pure scalars ∧
      (scalars.foldl appendUtf8Scalar [] = s ↔ utf8.WellFormed s) := by
  refine ⟨?_, ?_, fun s i hi => decodeUtf8Scalar_advances hi, ?_⟩
  · intro s size i hi hsize
    have haccepts := accepts_iff hi hsize
    have hlength := length_window hsize i
    have hne : window s size i ≠ [] := by grind
    refine ⟨fun c n => (haccepts c n).1.trans (haccepts c n).2.symm, ?_, ?_, ?_, ?_⟩
    · intro n
      rw [← exists_read?_iff]
      exact exists_congr fun c => (haccepts c n).1
    · intro c n h out
      obtain ⟨hc, rfl, rest, hw⟩ := utf8.of_read? ((haccepts c n).1.mp h)
      rw [appendUtf8Scalar_eq out hc.lt, hw, List.take_left]
    · rcases tryDecodeUtf8Scalar_follows hi hsize with ⟨c, n, hread, hstep⟩ | ⟨-, -, hpos, hle⟩
      · obtain ⟨hpos, hle⟩ := utf8.length_of_read? hread
        grind
      · exact ⟨hpos, by omega⟩
    · rw [decodeUtf8_eq hne]
      cases hread : utf8.read? (window s size i) with
      | none => exact ⟨Nat.one_pos, hi⟩
      | some r =>
        obtain ⟨hpos, hle⟩ := utf8.length_of_read? hread
        exact ⟨hpos, by rw [decoded]; dsimp only; omega⟩
  · intro c hc pre post
    have happend := appendUtf8Scalar_eq pre hc.lt
    have hnil : appendUtf8Scalar [] c = utf8.encode c := appendUtf8Scalar_eq [] hc.lt
    have hread := utf8.read?_encode hc post
    have hpos := utf8.length_encode_pos c
    rw [happend, hnil]
    refine ⟨?_, ?_⟩
    · grind [window, accepts_iff]
    · have hne : utf8.encode c ++ post ≠ [] := by
        intro h
        exact utf8.encode_ne_nil c (List.append_eq_nil_iff.mp h).1
      rw [decodeUtf8_eq hne, hread, decoded]
  · intro s
    refine ⟨utf8.replaced 0 s, decodeString_eq s, ?_⟩
    rw [foldl_appendUtf8Scalar (utf8.scalar_of_mem_replaced 0), List.nil_append]
    exact utf8.encodeAll_replaced_iff 0

/-- The euro sign inside a string, and cut off after two bytes. -/
theorem utf8_scalar_codec_euro :
    Admitted [0xE2, 0x82, 0xAC] ∧
      (∀ c, tryDecodeUtf8Scalar [0x41, 0xE2, 0x82, 0xAC] 3 1 ≠ ⟨some c, 3⟩) ∧
      tryDecodeUtf8Scalar [0x41, 0xE2, 0x82, 0xAC] 4 1 = ⟨some 0x20AC, 3⟩ := by
  have hwhole : tryDecodeUtf8Scalar [0x41, 0xE2, 0x82, 0xAC] 4 1 = ⟨some 0x20AC, 3⟩ :=
    (utf8_scalar_codec.2.1 0x20AC (Or.inl (by decide)) [0x41] []).1
  refine ⟨?_, ?_, hwhole⟩
  · exact ((utf8_scalar_codec.1 [0x41, 0xE2, 0x82, 0xAC] 4 1 (by decide) (by decide)).2.1 3).mp
      ⟨0x20AC, hwhole⟩ |>.2
  · intro c h
    have hlength := ((utf8_scalar_codec.1 [0x41, 0xE2, 0x82, 0xAC] 3 1 (by decide)
      (by decide)).2.1 3).mp ⟨c, h⟩
    exact absurd hlength.1 (by decide)

end SharpRuntime.Analysis.Utf8Scalar
