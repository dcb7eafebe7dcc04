import SharpRuntime.Analysis.IdnNames

/-!
# The numbers of the Punycode decoder

`decodeLabel` reads as RFC 3492 says, without its test for overflow.  It is compared with the reader
of `Adaptive.Steps`, whose numbers have no bound: as long as these fit an `int` the decoder forms
the same ones and ends as the reader does, and with the first that does not it leaves the range of
`int` (`decodeNext_cases`).  `getUnicode` tests what it has decoded.
-/

set_option autoImplicit false

namespace SharpRuntime.Analysis.PunycodeBounds

open Machine Machine.Utf8 Machine.Bootstring
open Model Model.IdnMapping Model.Utf8Scalar
open Interface Punycode IdnNames
open Utf8Scalar

section Answers

variable {α β : Type}

/-- The run is clean, and ends with a value that satisfies `Q` or with an `ArgumentException`. -/
def Answers (x : Run Exception α) (Q : α → Prop) : Prop :=
  (∃ a, x = pure a ∧ Q a) ∨ ∃ text name, x = Run.throwing (.argument text name)

variable {x : Run Exception α} {P : α → Prop}

theorem Answers.clean {Q : α → Prop} (h : Answers x Q) : x.clean = true := by
  rcases h with ⟨a, rfl, -⟩ | ⟨text, name, rfl⟩
  · rfl
  · rfl

theorem Answers.pure {a : α} (h : P a) : Answers (pure a) P := Or.inl ⟨a, rfl, h⟩

theorem Answers.malformed (text : String) : Answers (Run.throwing (malformed text)) P :=
  Or.inr ⟨_, _, rfl⟩

variable {f : α → Run Exception β}

theorem Answers.bind {Q : β → Prop} (hx : Answers x P)
    (hf : ∀ a, P a → Answers (f a) Q) : Answers (x >>= f) Q := by
  rcases hx with ⟨a, rfl, ha⟩ | ⟨text, name, rfl⟩
  · exact hf a ha
  · exact Or.inr ⟨text, name, rfl⟩

/-- The run is clean, and ends with a value or with one of the class's own exceptions. -/
def Ends (x : Run Exception α) : Prop :=
  (∃ a, x = Pure.pure a) ∨ ∃ text, x = Run.throwing (IdnMapping.malformed text)

theorem Ends.bind (hx : Ends x) (hf : ∀ a, x = Pure.pure a → Ends (f a)) : Ends (x >>= f) := by
  rcases hx with ⟨a, rfl⟩ | ⟨text, rfl⟩
  · exact hf a rfl
  · exact Or.inr ⟨text, rfl⟩

theorem Ends.answers (h : Ends x) (hP : ∀ a, x = Pure.pure a → P a) : Answers x P := by
  rcases h with ⟨a, rfl⟩ | ⟨text, rfl⟩
  · exact Answers.pure (hP a rfl)
  · exact Answers.malformed text

/-- The run leaves the range of its numbers exactly when `A` fails; else it returns when `B` holds,
and refuses when not. -/
def Decides (x : Run Exception α) (A B : Prop) : Prop :=
  (A ∧ (B ∧ (∃ a, x = Pure.pure a) ∨ ¬ B ∧ ∃ text, x = Run.throwing (IdnMapping.malformed text))) ∨
    (¬ A ∧ x.clean = false)

variable {A B : Prop}

theorem Decides.congr {A' B' : Prop} (h : Decides x A B) (hA : A ↔ A') (hB : B ↔ B') :
    Decides x A' B' := by
  rw [Decides, ← hA, ← hB]
  exact h

theorem Ends.decides (h : Ends x) : Decides x True (∃ a, x = Pure.pure a) := by
  refine Or.inl ⟨trivial, ?_⟩
  rcases h with ⟨a, rfl⟩ | ⟨text, rfl⟩
  · exact Or.inl ⟨⟨a, rfl⟩, a, rfl⟩
  · refine Or.inr ⟨?_, text, rfl⟩
    rintro ⟨a, h⟩
    cases h

theorem Decides.map {f : α → β} (h : Decides x A B) :
    Decides (x >>= fun a => Pure.pure (f a)) A B := by
  rcases h with ⟨hA, ⟨hB, a, rfl⟩ | ⟨hB, text, rfl⟩⟩ | ⟨hA, hclean⟩
  · exact Or.inl ⟨hA, Or.inl ⟨hB, f a, pure_bind _ _⟩⟩
  · exact Or.inl ⟨hA, Or.inr ⟨hB, text, rfl⟩⟩
  · exact Or.inr ⟨hA, Run.clean_bind_of_not hclean _⟩

end Answers

theorem int32_unclean {n : ℕ} (h : ¬ n ≤ intcsMax) : (int32 n).clean = false := by
  refine Run.clean_bind_of_not ?_ _
  exact decide_eq_false h

/-- The digit that a byte stands for.
SOURCE: IdnMapping.cpp:94-99 -/
def digitOf (c : UInt8) : Option ℕ :=
  if 0x30 ≤ c ∧ c ≤ 0x39 then some (c.toNat - 0x30 + 26)
  else if 0x61 ≤ c ∧ c ≤ 0x7A then some (c.toNat - 0x61)
  else if 0x41 ≤ c ∧ c ≤ 0x5A then some (c.toNat - 0x41)
  else none

theorem decodeDigit_eq (c : UInt8) :
    (∃ d, digitOf c = some d ∧ decodeDigit c = pure d) ∨
      (digitOf c = none ∧ ∃ text, decodeDigit c = Run.throwing (malformed text)) := by
  unfold digitOf decodeDigit
  split_ifs
  · exact Or.inl ⟨_, rfl, rfl⟩
  · exact Or.inl ⟨_, rfl, rfl⟩
  · exact Or.inl ⟨_, rfl, rfl⟩
  · exact Or.inr ⟨rfl, _, rfl⟩

theorem readDelta_cases {bias : ℕ} (hbias : bias + tmax ≤ intcsMax) {j i : ℕ} {s : List UInt8}
    (hk : base * (j + 1 + s.length) ≤ intcsMax) :
    ((thresholds bias).Within intcsMax j i (s.map digitOf) ∧
      ((thresholds bias).read j (s.map digitOf) = none ∧
          (∃ text, readDelta bias (base * (j + 1)) ((thresholds bias).weight j) i s =
            Run.throwing (malformed text)) ∨
        ∃ d rest, (thresholds bias).read j (s.map digitOf) = some (d, rest.map digitOf) ∧
          readDelta bias (base * (j + 1)) ((thresholds bias).weight j) i s =
            pure (i + d, rest))) ∨
      (¬ (thresholds bias).Within intcsMax j i (s.map digitOf) ∧
        (readDelta bias (base * (j + 1)) ((thresholds bias).weight j) i s).clean = false) := by
  induction s generalizing j i with
  | nil => exact Or.inl ⟨trivial, Or.inl ⟨rfl, _, rfl⟩⟩
  | cons c s ih =>
    rw [List.length_cons] at hk
    rw [List.map_cons, readDelta]
    rcases decodeDigit_eq c with ⟨d, hdigit, hdecode⟩ | ⟨hdigit, text, hdecode⟩
    · rw [hdigit, hdecode, pure_bind, Thresholds.Within, Thresholds.read]
      by_cases hsum : i + d * (thresholds bias).weight j ≤ intcsMax
      · rw [int32_eq hsum, pure_bind, Run.observe_eq_pure hbias, pure_bind]
        by_cases hlast : d < threshold (base * (j + 1)) bias
        · have hlast' : d < (thresholds bias).at' j := hlast
          grind
        · have hlast' : ¬ d < (thresholds bias).at' j := hlast
          have hweight : (thresholds bias).weight j * (base - threshold (base * (j + 1)) bias) =
              (thresholds bias).weight (j + 1) := rfl
          rw [if_neg hlast, if_neg hlast', hweight, and_iff_right hsum, or_iff_right hlast']
          by_cases hfits : (thresholds bias).weight (j + 1) ≤ intcsMax
          · have hplace : base * (j + 1) + base = base * (j + 1 + 1) := rfl
            have hsmall : base * (j + 1 + 1) ≤ intcsMax :=
              (Nat.mul_le_mul_left base (by omega)).trans hk
            rw [int32_eq hfits, pure_bind, hplace, int32_eq hsmall, pure_bind, and_iff_right hfits]
            have hrest := ih (j := j + 1) (i := i + d * (thresholds bias).weight j)
              (by rwa [Nat.add_right_comm, Nat.add_assoc (j + 1)])
            rcases hrest with ⟨hwithin, ⟨hnone, hthrows⟩ | ⟨v, rest, hread, hreturns⟩⟩ | hbad
            · exact Or.inl ⟨hwithin, Or.inl ⟨by rw [hnone, Option.map_none], hthrows⟩⟩
            · grind
            · exact Or.inr hbad
          · exact Or.inr ⟨fun h => hfits h.1, Run.clean_bind_of_not (int32_unclean hfits) _⟩
      · exact Or.inr ⟨fun h => hsum h.1, Run.clean_bind_of_not (int32_unclean hsum) _⟩
    · rw [hdigit, hdecode]
      exact Or.inl ⟨trivial, Or.inl ⟨rfl, text, rfl⟩⟩

def progress (d : Decoder) : Progress := ⟨⟨d.n, d.i, d.out⟩, d.bias, d.rest.map digitOf⟩

/-- What stays small in a label of at most 63 bytes. -/
structure Sized (d : Decoder) : Prop where
  bias : d.bias ≤ 216
  length : d.out.length + d.rest.length ≤ labelMax

theorem invalid_iff (n : ℕ) :
    (n < 0x80 ∨ 0xD800 ≤ n ∧ n ≤ 0xDFFF ∨ 0x10FFFF < n) ↔ ¬ Insertable n := by
  rw [Insertable, scalar_iff]
  omega

variable {d : Decoder}

/-- One round in the range of `int` is one insertion of the decoder, or a refusal; outside of it
some step overflows. -/
theorem decodeNext_cases (hd : Sized d) : (punycode.Fits intcsMax (progress d) ∧
      ((∀ q, ¬ punycode.Steps Insertable (progress d) q) ∧
          (∃ text, decodeNext d = Run.throwing (malformed text)) ∨
        ∃ d', decodeNext d = pure d' ∧ punycode.Steps Insertable (progress d) (progress d') ∧
          Sized d' ∧ d'.rest.length < d.rest.length)) ∨
      (¬ punycode.Fits intcsMax (progress d) ∧ (decodeNext d).clean = false) := by
  obtain ⟨hbias, hlength⟩ := hd
  have hmax : labelMax = 63 := rfl
  have hint : intcsMax = 2147483647 := rfl
  have htop : d.bias + tmax ≤ intcsMax := by
    change d.bias + 26 ≤ _
    omega
  have hk : base * (0 + 1 + d.rest.length) ≤ intcsMax := by
    change 36 * _ ≤ _
    omega
  rw [decodeNext]
  rcases readDelta_cases htop (j := 0) (i := d.i) hk with
    ⟨hwithin, ⟨hnone, text, hthrows⟩ | ⟨v, rest, hread, hreturns⟩⟩ | ⟨hwithin, hclean⟩
  · -- the digits end before the distance does
    refine Or.inl ⟨⟨hwithin, fun v rest hread => ?_⟩, Or.inl ⟨?_, text, ?_⟩⟩
    · cases hnone.symm.trans hread
    · rintro q ⟨hread, -⟩
      cases hnone.symm.trans hread
    · exact congrArg (· >>= _) hthrows
  · have hi : d.i + v ≤ intcsMax := hwithin.add_le hread
    have hless : rest.length < d.rest.length := by
      have := Thresholds.length_of_read hread
      rwa [List.length_map, List.length_map] at this
    have hrun : readDelta d.bias base 1 d.i d.rest = pure (d.i + v, rest) := hreturns
    rw [hrun, pure_bind]
    dsimp only
    rw [int32_eq (by omega), pure_bind, Nat.add_sub_cancel_left, adapt_eq (by omega), pure_bind]
    have hvalue : ((progress d).counter.move v).value = d.n + (d.i + v) / (d.out.length + 1) := rfl
    by_cases hn : d.n + (d.i + v) / (d.out.length + 1) ≤ intcsMax
    · rw [int32_eq hn, pure_bind]
      have hfits : punycode.Fits intcsMax (progress d) := by
        refine ⟨hwithin, fun v' rest' hread' => ?_⟩
        cases hread.symm.trans hread'
        exact hvalue ▸ hn
      refine Or.inl ⟨hfits, ?_⟩
      by_cases hok : Insertable (d.n + (d.i + v) / (d.out.length + 1))
      · right
        have hvalid := mt (invalid_iff _).mp (not_not.mpr hok)
        have hplace : (d.i + v) % (d.out.length + 1) < d.out.length + 1 :=
          Nat.mod_lt _ (Nat.succ_pos _)
        rw [if_neg hvalid, Run.observe_eq_pure (by omega), pure_bind, int32_eq (by omega),
          pure_bind]
        refine ⟨_, rfl, .intro hread (hvalue ▸ hok), ⟨?_, ?_⟩, hless⟩
        · exact biasOf_le_of_lt 5 (Nat.lt_of_le_of_lt (by omega) (by decide : intcsMax < _)) _ _
        · grind
      · left
        rw [if_pos ((invalid_iff _).mpr hok)]
        refine ⟨?_, _, rfl⟩
        rintro q ⟨hread', hok'⟩
        cases hread.symm.trans hread'
        exact hok (hvalue ▸ hok')
    · refine Or.inr ⟨fun h => hn ?_, Run.clean_bind_of_not (int32_unclean hn) _⟩
      exact hvalue ▸ h.value v _ hread
  · refine Or.inr ⟨fun h => hwithin h.within, ?_⟩
    exact Run.clean_bind_of_not hclean _

theorem decode_decides {fuel : ℕ} (hd : Sized d) (hfuel : d.rest.length ≤ fuel) :
    Decides (Run.whileLoop (fun d : Decoder => !d.rest.isEmpty) decodeNext fuel d)
      (punycode.StaysWithin Insertable intcsMax (progress d))
      (punycode.Finishes Insertable (progress d)) := by
  have hdone : ∀ {fuel : ℕ} {d : Decoder}, d.rest = [] →
      Decides (Run.whileLoop (fun d : Decoder => !d.rest.isEmpty) decodeNext fuel d)
        (punycode.StaysWithin Insertable intcsMax (progress d))
        (punycode.Finishes Insertable (progress d)) := by
    intro fuel d hnil
    have hrest : (progress d).rest = [] := by rw [progress, hnil, List.map_nil]
    refine Or.inl ⟨?_, Or.inl ⟨⟨_, .refl, hrest⟩, d, Run.whileLoop_of_not (by rw [hnil]; rfl)⟩⟩
    rw [Adaptive.staysWithin_iff]
    refine ⟨⟨?_, fun v rest hread => ?_⟩, fun q hq => absurd hq (Adaptive.not_steps_of_nil hrest)⟩
    · rw [hrest]
      trivial
    · rw [hrest] at hread
      cases hread
  induction fuel generalizing d with
  | zero => exact hdone (List.length_eq_zero_iff.mp (by omega))
  | succ fuel ih =>
    by_cases hnil : d.rest = []
    · exact hdone hnil
    have hgo : (!d.rest.isEmpty) = true := by simpa using hnil
    have hrest : (progress d).rest ≠ [] := fun h => hnil (List.map_eq_nil_iff.mp h)
    rw [Run.whileLoop, if_pos hgo]
    rcases decodeNext_cases hd with
      ⟨hfits, ⟨hnone, text, hthrows⟩ | ⟨d', hreturns, hstep, hd', hless⟩⟩ | ⟨hfits, hclean⟩
    · rw [hthrows]
      refine Or.inl ⟨Adaptive.staysWithin_iff.mpr ⟨hfits, fun q hq => absurd hq (hnone q)⟩,
        Or.inr ⟨fun hfinishes => ?_, text, rfl⟩⟩
      rcases Adaptive.finishes_iff.mp hfinishes with h | ⟨q, hq, -⟩
      · exact hrest h
      · exact hnone q hq
    · rw [hreturns, pure_bind]
      refine (ih hd' (by omega)).congr ?_ ?_
      · grind [Adaptive.staysWithin_iff, hstep.unique]
      · grind [Adaptive.finishes_iff, hstep.unique]
    · exact Or.inr ⟨fun h => hfits (Adaptive.staysWithin_iff.mp h).1,
        Run.clean_bind_of_not hclean _⟩

theorem copyBasic_cases (basic : List UInt8) :
    ((∀ c ∈ basic, ¬ 0x7F < c) ∧ copyBasic basic = pure (basic.map fun c => asciiLower c.toNat)) ∨
      ((∃ c ∈ basic, 0x7F < c) ∧ ∃ text, copyBasic basic = Run.throwing (malformed text)) := by
  have hfold : ∀ out : List ℕ,
      ((∀ c ∈ basic, ¬ 0x7F < c) ∧ basic.foldlM
        (fun out c => if 0x7F < c then Run.throwing (malformed "non-ASCII in basic portion.")
          else (pure (out ++ [asciiLower c.toNat]) : Run Exception (List ℕ))) out
        = pure (out ++ basic.map fun c => asciiLower c.toNat)) ∨
      ((∃ c ∈ basic, 0x7F < c) ∧ ∃ text, basic.foldlM
        (fun out c => if 0x7F < c then Run.throwing (malformed "non-ASCII in basic portion.")
          else (pure (out ++ [asciiLower c.toNat]) : Run Exception (List ℕ))) out
        = Run.throwing (malformed text)) := by
    induction basic with
    | nil => exact fun out => Or.inl ⟨nofun, congrArg pure (List.append_nil out).symm⟩
    | cons c basic ih =>
      intro out
      rw [List.foldlM_cons]
      by_cases hhigh : 0x7F < c
      · exact Or.inr ⟨⟨c, List.mem_cons_self, hhigh⟩, _, by rw [if_pos hhigh]; rfl⟩
      · grind
  exact hfold []

/-- Where the reader starts in a label, if the label is not refused before: a delimiter stands at
its end, or a byte outside ASCII before its last delimiter.
SOURCE: IdnMapping.cpp:179-198 -/
def opening (label : List UInt8) : Option Progress :=
  let delimiter := lastDelimiter label
  let basic := label.take delimiter.toNat
  if delimiter = (label.length : ℤ) - 1 ∨ ∃ c ∈ basic, 0x7F < c then none
  else some {
    counter := ⟨initialN, 0, basic.map fun c => asciiLower c.toNat⟩
    bias := initialBias
    rest := (label.drop (if 0 < delimiter then delimiter.toNat + 1 else 0)).map digitOf }

theorem decodeLabel_decides {label : List UInt8} (hlength : label.length ≤ labelMax) :
    Decides (decodeLabel label)
      (∀ p, opening label = some p → punycode.StaysWithin Insertable intcsMax p)
      (∃ p, opening label = some p ∧ punycode.Finishes Insertable p) := by
  have hrefused : opening label = none → ∀ text,
      Decides (Run.throwing (malformed text) : Run Exception (List ℕ))
        (∀ p, opening label = some p → punycode.StaysWithin Insertable intcsMax p)
        (∃ p, opening label = some p ∧ punycode.Finishes Insertable p) := by
    intro hnone text
    rw [hnone]
    exact Or.inl ⟨nofun, Or.inr ⟨nofun, text, rfl⟩⟩
  have hint : label.length ≤ intcsMax := hlength.trans (by decide)
  rw [decodeLabel, int32_eq hint, pure_bind]
  dsimp only
  by_cases htrailing : lastDelimiter label = (label.length : ℤ) - 1
  · rw [if_pos htrailing]
    exact hrefused (if_pos (Or.inl htrailing)) _
  · rw [if_neg htrailing]
    have hbasic : ∀ f : List ℕ → Run Exception (List ℕ),
        (if 0 < lastDelimiter label then copyBasic (label.take (lastDelimiter label).toNat) >>= f
          else pure [] >>= f) = copyBasic (label.take (lastDelimiter label).toNat) >>= f := by
      intro f
      split
      case isTrue => rfl
      case isFalse h =>
        rw [Int.toNat_of_nonpos (Int.not_lt.mp h)]
        rfl
    rw [hbasic]
    rcases copyBasic_cases (label.take (lastDelimiter label).toNat) with
      ⟨hlow, hcopy⟩ | ⟨hhigh, text, hcopy⟩
    · have hstart : ¬ (lastDelimiter label = (label.length : ℤ) - 1 ∨
          ∃ c ∈ label.take (lastDelimiter label).toNat, 0x7F < c) :=
        not_or.mpr ⟨htrailing, fun ⟨c, hc, hhigh⟩ => hlow c hc hhigh⟩
      rw [hcopy, pure_bind]
      generalize hd : Decoder.mk ((label.take (lastDelimiter label).toNat).map
        fun c => asciiLower c.toNat) initialN initialBias 0 (label.drop
          (if 0 < lastDelimiter label then (lastDelimiter label).toNat + 1 else 0)) = d
      have hopening : opening label = some (progress d) := by
        rw [opening, if_neg hstart, ← hd]
        rfl
      have hsized : Sized d := by
        subst hd
        refine ⟨(by decide : initialBias ≤ 216), ?_⟩
        rw [List.length_map, List.length_take, List.length_drop]
        split
        case isTrue => omega
        case isFalse => omega
      have hrest : d.rest.length ≤ label.length := by grind
      rw [hopening]
      refine (decode_decides hsized hrest).map.congr ?_ ?_
      · simp only [Option.some.injEq, forall_eq']
      · simp only [Option.some.injEq, exists_eq_left']
    · rw [hcopy]
      exact hrefused (if_pos (Or.inr hhigh)) text

/-- All the numbers that RFC 3492 forms in reading the label are `int`s. -/
def FitsLabel (label : List UInt8) : Prop :=
  label.length ≤ labelMax → isPunycode label = true → ∀ p, opening (label.drop 4) = some p →
    punycode.StaysWithin Insertable intcsMax p

/-- The label is short enough and, when it begins with `xn--`, one that RFC 3492 reads to its
end. -/
def AcceptsLabel (label : List UInt8) : Prop :=
  label.length ≤ labelMax ∧ (isPunycode label = true →
    ∃ p, opening (label.drop 4) = some p ∧ punycode.Finishes Insertable p)

theorem labelToUnicode_decides (label : List UInt8) :
    Decides (labelToUnicode label) (FitsLabel label) (AcceptsLabel label) := by
  unfold FitsLabel AcceptsLabel labelToUnicode
  by_cases hlong : labelMax < label.length
  · rw [if_pos hlong]
    exact Or.inl ⟨fun h => absurd h (Nat.not_le.mpr hlong),
      Or.inr ⟨fun h => Nat.not_le.mpr hlong h.1, _, rfl⟩⟩
  · have hlength := Nat.not_lt.mp hlong
    rw [if_neg hlong]
    by_cases hace : isPunycode label = true
    · rw [if_pos hace]
      have hdrop : (label.drop 4).length ≤ labelMax := (List.drop_sublist _ _).length_le.trans hlength
      refine (decodeLabel_decides hdrop).map.congr ?_ ?_
      · exact ⟨fun h _ _ => h, fun h => h hlength hace⟩
      · exact ⟨fun h => ⟨hlength, fun _ => h⟩, fun h => h.2 hace⟩
    · rw [if_neg hace]
      exact Or.inl ⟨fun _ h => absurd h hace, Or.inl ⟨⟨hlength, fun h => absurd h hace⟩, label, rfl⟩⟩

section EachLabel

variable {α : Type} {isSeparator : α → Bool} {convert : List α → Run Exception (List UInt8)}

def EachFits (A B : List α → Prop) (labels : List (List α)) : Prop :=
  ∀ pre label post, labels = pre ++ label :: post → (∀ l ∈ pre, l ≠ [] ∧ B l) → A label

variable {A B : List α → Prop}

theorem eachFits_cons (label : List α) (labels : List (List α)) :
    EachFits A B (label :: labels) ↔ A label ∧ (label ≠ [] → B label → EachFits A B labels) := by
  constructor
  · intro h
    refine ⟨h [] label labels rfl nofun, fun hne hB pre l post hsplit hpre => ?_⟩
    exact h (label :: pre) l post (by rw [hsplit, List.cons_append])
      (List.forall_mem_cons.mpr ⟨⟨hne, hB⟩, hpre⟩)
  · rintro ⟨hA, hrest⟩ pre l post hsplit hpre
    cases pre with
    | nil =>
      obtain ⟨rfl, -⟩ := List.cons.inj hsplit
      exact hA
    | cons p pre =>
      obtain ⟨rfl, htail⟩ := List.cons.inj hsplit
      obtain ⟨⟨hne, hB⟩, hpre⟩ := List.forall_mem_cons.mp hpre
      exact hrest hne hB pre l post htail hpre

theorem eachFits_nil (A B : List α → Prop) : EachFits A B [] := by
  rintro pre label post hsplit
  cases pre with
  | nil => cases hsplit
  | cons _ _ => cases hsplit

theorem eachLabel_cases (hnil : A []) {fuel : ℕ} {name : List α} (hfuel : name.length < fuel)
    (h : ∀ label : List α, (∀ c ∈ label, c ∈ name) → Decides (convert label) (A label) (B label))
    (result : List UInt8) :
    (EachFits A B (name.splitOnP isSeparator) ∧
        Ends (eachLabel isSeparator convert fuel name result)) ∨
      (¬ EachFits A B (name.splitOnP isSeparator) ∧
        (eachLabel isSeparator convert fuel name result).clean = false) := by
  induction fuel generalizing name result with
  | zero => omega
  | succ fuel ih =>
    rcases name_cases isSeparator name with rfl | ⟨c, rest, hc, rfl⟩ | ⟨hne, hlabel⟩ |
      ⟨label, c, rest, hne, hlabel, hc, rfl⟩
    · rw [List.splitOnP_nil, eachFits_cons, eachLabel_nil]
      exact Or.inl ⟨⟨hnil, fun h => absurd rfl h⟩, Or.inl ⟨_, rfl⟩⟩
    · have hsplit : (c :: rest).splitOnP isSeparator = [] :: rest.splitOnP isSeparator :=
        @List.splitOnP_append_cons_of_forall_mem _ _ [] nofun c hc rest
      rw [hsplit, eachFits_cons, eachLabel_separator hc]
      exact Or.inl ⟨⟨hnil, fun h => absurd rfl h⟩, Or.inr ⟨_, rfl⟩⟩
    · rw [List.splitOnP_eq_singleton hlabel, eachFits_cons, eachLabel_last hne hlabel]
      rcases h name (fun _ hc => hc) with ⟨hA, ⟨-, r, hr⟩ | ⟨-, text, hr⟩⟩ | ⟨hA, hclean⟩
      · exact Or.inl ⟨⟨hA, fun _ _ => eachFits_nil A B⟩, Or.inl ⟨_, by rw [hr, pure_bind]⟩⟩
      · exact Or.inl ⟨⟨hA, fun _ _ => eachFits_nil A B⟩, Or.inr ⟨text, by rw [hr]; rfl⟩⟩
      · exact Or.inr ⟨fun h => hA h.1, Run.clean_bind_of_not hclean _⟩
    · rw [List.splitOnP_append_cons_of_forall_mem hlabel c hc, eachFits_cons,
        eachLabel_cons hne hlabel hc]
      rcases h label (fun _ hc => List.mem_append_left _ hc) with
        ⟨hA, ⟨hB, r, hr⟩ | ⟨hB, text, hr⟩⟩ | ⟨hA, hclean⟩
      · grind
      · rw [hr]
        exact Or.inl ⟨⟨hA, fun _ h => absurd h hB⟩, Or.inr ⟨text, rfl⟩⟩
      · exact Or.inr ⟨fun h => hA h.1, Run.clean_bind_of_not hclean _⟩

end EachLabel

theorem utf8ToCodePoints_ends (s : List UInt8) : Ends (utf8ToCodePoints s) := by
  have hloop : ∀ (fuel i : ℕ) (out : List ℕ), s.length ≤ i + fuel →
      Ends (Run.whileLoop (fun p : ℕ × List ℕ => decide (p.1 < s.length)) (nextCodePoint s)
        fuel (i, out)) := by
    intro fuel
    induction fuel with
    | zero =>
      intro i out hfuel
      rw [Run.whileLoop_exit (p := fun p : ℕ × List ℕ => p.1 < s.length) (Nat.not_lt.mpr hfuel)]
      exact Or.inl ⟨_, rfl⟩
    | succ fuel ih =>
      intro i out hfuel
      by_cases hi : i < s.length
      · rw [Run.whileLoop_enter (p := fun p : ℕ × List ℕ => p.1 < s.length) hi]
        rcases tryDecodeUtf8Scalar_follows hi (Nat.le_refl _) with
          ⟨c, n, hread, hstep⟩ | ⟨-, hstep, -⟩
        · have hpos : 0 < n := by
            obtain ⟨-, rfl, -⟩ := utf8.of_read? hread
            exact utf8.length_encode_pos c
          have hnext : nextCodePoint s (i, out) = pure (i + n, out ++ [c]) := by
            simp only [nextCodePoint, hstep]
          grind
        · have hnext : nextCodePoint s (i, out) =
              Run.throwing (malformed "invalid UTF-8 sequence.") := by grind [nextCodePoint]
          rw [hnext]
          exact Or.inr ⟨_, rfl⟩
      · rw [Run.whileLoop_exit (p := fun p : ℕ × List ℕ => p.1 < s.length) hi]
        exact Or.inl ⟨_, rfl⟩
  exact (hloop s.length 0 [] (by omega)).bind fun p _ => Or.inl ⟨p.2, rfl⟩

theorem checkStd3_ends (m : IdnMapping) (label : List ℕ) : Ends (checkStd3 m label) := by
  unfold checkStd3
  split
  case isTrue =>
    rw [validateStd3, List.forM_eq_forM]
    generalize label.zipIdx = places
    induction places with
    | nil => exact Or.inl ⟨_, rfl⟩
    | cons p places ih =>
      refine Ends.bind ?_ fun _ _ => ih
      exact (validateStd3Char_cases p.1 _).imp (fun h => ⟨_, h⟩) id
  case isFalse => exact Or.inl ⟨_, rfl⟩

theorem labelToAscii_ends (m : IdnMapping) {label : List ℕ} (hscalar : ∀ c ∈ label, Scalar c) :
    Ends (labelToAscii m label) := by
  unfold labelToAscii
  by_cases hlong : labelMax < label.length
  · rw [if_pos hlong]
    exact Or.inr ⟨_, rfl⟩
  · rw [if_neg hlong]
    refine (checkStd3_ends m label).bind fun _ _ => ?_
    by_cases hall : label.all isBasic = true
    · rw [if_pos hall]
      exact Or.inl ⟨_, rfl⟩
    · have hsome : ∃ c ∈ label, initialN ≤ c := by
        by_contra hnone
        push Not at hnone
        exact hall (List.all_eq_true.mpr fun c hc => decide_eq_true (hnone c hc))
      obtain ⟨ds, s, hencode, -⟩ := encodeLabel_eq hscalar (Nat.not_lt.mp hlong) hsome
      rw [if_neg hall, hencode, pure_bind]
      dsimp only
      split
      case isTrue => exact Or.inr ⟨_, rfl⟩
      case isFalse => exact Or.inl ⟨_, rfl⟩

section Mapping

variable (lookupUnicodeCategory : ℕ → ℕ) (m : IdnMapping)

theorem getAscii_answers (name : List UInt8) :
    Answers (getAscii lookupUnicodeCategory m name)
      fun r => getAscii lookupUnicodeCategory m name = pure r := by
  have hanswers : Answers (getAscii lookupUnicodeCategory m name) fun _ => True := by
    unfold getAscii
    split
    case isTrue => exact Answers.malformed _
    case isFalse =>
      refine ((utf8ToCodePoints_ends name).answers fun _ h => h).bind fun cs hcs => ?_
      split
      case isTrue => exact Or.inr ⟨_, _, rfl⟩
      case isFalse =>
        have hscalar := (encodeAll_of_utf8ToCodePoints (s := name) (by rw [hcs]; rfl)).1
        have hlabels := @eachLabel_cases _ isSeparator (labelToAscii m) (fun _ => True)
          (fun label => ∃ a, labelToAscii m label = pure a) trivial _ _ (Nat.lt_succ_self cs.length)
          (fun label hlabel => (labelToAscii_ends m fun c hc => hscalar c (hlabel c hc)).decides) []
        rcases hlabels with ⟨-, hends⟩ | ⟨hnot, -⟩
        · refine (hends.answers (P := fun _ => True) fun _ _ => trivial).bind fun r _ => ?_
          split
          case isTrue => exact Answers.malformed _
          case isFalse => exact Answers.pure trivial
        · exact absurd (fun _ _ _ _ _ => trivial) hnot
  rcases hanswers with ⟨r, hr, -⟩ | hthrows
  · exact Or.inl ⟨r, hr, hr⟩
  · exact Or.inr hthrows

/-- **A name is converted safely exactly when the numbers of RFC 3492 are `int`s**, in every label
that the labels before it lead to: no sum and no product overflows, every insertion is inside the
output, and the call returns a name that is converted back to the given one, up to the case of its
letters, or throws an `ArgumentException`. -/
theorem getUnicode_answers_iff (ascii : List UInt8) :
    Answers (getUnicode lookupUnicodeCategory m ascii) (fun name =>
        ∃ back, getAscii lookupUnicodeCategory m name = pure back ∧
          equalsIgnoreCaseAscii back ascii = true) ↔
      EachFits FitsLabel AcceptsLabel (ascii.splitOnP (· == 0x2E)) := by
  have hnil : FitsLabel [] := fun _ h => nomatch h
  unfold getUnicode
  by_cases hempty : ascii = []
  · rw [if_pos hempty, hempty, List.splitOnP_nil, eachFits_cons]
    exact ⟨fun _ => ⟨hnil, fun h => absurd rfl h⟩, fun _ => Answers.malformed _⟩
  · rw [if_neg hempty]
    have hlabels := @eachLabel_cases _ (· == 0x2E) _ _ _ hnil _ _ (Nat.lt_succ_self ascii.length)
      (fun label _ => labelToUnicode_decides label) []
    rcases hlabels with ⟨hfits, hends⟩ | ⟨hfits, hclean⟩
    · refine iff_of_true ?_ hfits
      refine (hends.answers (P := fun _ => True) fun _ _ => trivial).bind fun name _ => ?_
      refine (getAscii_answers lookupUnicodeCategory m name).bind fun back hback => ?_
      split
      case isTrue heq => exact Answers.pure ⟨back, hback, heq⟩
      case isFalse => exact Answers.malformed _
    · refine iff_of_false (fun h => ?_) hfits
      have hunclean := h.clean
      rw [Run.clean_bind_of_not hclean] at hunclean
      cases hunclean

end Mapping

/-- The digits of `xn--99999999` are the greatest ones, and the sum leaves the range of `int` at the
eighth. -/
theorem getUnicode_unclean :
    ¬ ∀ ascii : List UInt8, ascii.length ≤ 63 → (∀ c ∈ ascii, c < 0x80) →
      Answers (getUnicode categoryOf ⟨false, false⟩ ascii) fun name =>
        ∃ back, getAscii categoryOf ⟨false, false⟩ name = pure back ∧
          equalsIgnoreCaseAscii back ascii = true := by
  intro h
  have hclean := (h [0x78, 0x6E, 0x2D, 0x2D, 0x39, 0x39, 0x39, 0x39, 0x39, 0x39, 0x39, 0x39]
    (by decide) (by decide +kernel)).clean
  have hunclean : (getUnicode categoryOf ⟨false, false⟩ [0x78, 0x6E, 0x2D, 0x2D, 0x39, 0x39, 0x39,
    0x39, 0x39, 0x39, 0x39, 0x39]).clean = false := by decide +kernel
  rw [hunclean] at hclean
  cases hclean

end SharpRuntime.Analysis.PunycodeBounds
