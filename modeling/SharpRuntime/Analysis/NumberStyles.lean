import SharpRuntime.Analysis.NumberScan

/-!
# The integer parsers accept the grammar of a style

The leading and the trailing loop take affixes as long as they match (`TokenLoop`), and the flags
they keep count signs, currency symbols and open parentheses.  On the text of a well-formed numeral
every stage stops at the right byte (`scanNumber_text`), and what the stages take from an accepted
string is a well-formed numeral (`scanNumber_total`).
-/

set_option autoImplicit false

namespace SharpRuntime.Analysis.NumberStyles

open Machine Model Model.IntegerNumberStylesParser Interface
open NumberScan
open IntegerNumberStylesParser
open Affix

/-! ## Flags -/

def after (f : TokenFlags) : Affix → TokenFlags
  | .white _ => f
  | .sign negative => { f with negative := negative, haveSign := true }
  | .opening => { f with haveParen := true, haveSign := true, negative := true }
  | .closing => { f with haveParen := false }
  | .currency => { f with haveCurrency := true }

def Admits (f : TokenFlags) : Affix → Prop
  | .white _ => True
  | .sign _ => f.haveSign = false
  | .opening => f.haveSign = false
  | .closing => f.haveParen = true
  | .currency => f.haveCurrency = false

/-- Whether there is room for several affixes, one after the other. -/
def AdmitsAll : TokenFlags → List Affix → Prop
  | _, [] => True
  | f, a :: affixes => Admits f a ∧ AdmitsAll (after f a) affixes

theorem admitsAll_append (f : TokenFlags) (as bs : List Affix) :
    AdmitsAll f (as ++ bs) ↔ AdmitsAll f as ∧ AdmitsAll (as.foldl after f) bs := by
  induction as generalizing f with
  | nil => simp [AdmitsAll]
  | cons a as ih => simp only [List.cons_append, AdmitsAll, List.foldl_cons, ih, and_assoc]

/-- An open parenthesis, or a minus, is a sign that has been read. -/
structure Consistent (f : TokenFlags) : Prop where
  paren : f.haveParen = true → f.haveSign = true
  negative : f.negative = true → f.haveSign = true

theorem consistent_start : Consistent {} := ⟨(fun h => nomatch h), (fun h => nomatch h)⟩

variable {f : TokenFlags}

theorem Consistent.after (h : Consistent f) (a : Affix) : Consistent (NumberStyles.after f a) := by
  cases a with
  | white c => exact h
  | sign negative => exact ⟨fun _ => rfl, fun _ => rfl⟩
  | opening => exact ⟨fun _ => rfl, fun _ => rfl⟩
  | closing => exact ⟨(fun hp => nomatch hp), h.negative⟩
  | currency => exact ⟨h.paren, h.negative⟩

/-- The flags count what has been read. -/
structure Counts (f : TokenFlags) (affixes : List Affix) (f' : TokenFlags) : Prop where
  sign : f'.haveSign.toNat = f.haveSign.toNat + affixes.countP isSign
  currency : f'.haveCurrency.toNat = f.haveCurrency.toNat + affixes.count .currency
  paren : f'.haveParen.toNat + affixes.count .closing = f.haveParen.toNat + affixes.count .opening
  negative : f'.negative = (f.negative || affixes.any isNegative)

theorem counts_after (hf : Consistent f) {a : Affix} (h : Admits f a) :
    Counts f [a] (after f a) := by
  have hnegative : f.haveSign = false → f.negative = false := by
    intro hs
    by_contra hn
    rw [hf.negative (by simpa using hn)] at hs
    cases hs
  have hparen : f.haveSign = false → f.haveParen = false := by
    intro hs
    by_contra hp
    rw [hf.paren (by simpa using hp)] at hs
    cases hs
  cases a with
  | white c => exact ⟨rfl, rfl, rfl, by simp [after, isNegative]⟩
  | sign negative =>
    have hs : f.haveSign = false := h
    exact ⟨by rw [hs]; rfl, rfl, rfl, by simp [after, hnegative hs, isNegative]⟩
  | opening =>
    have hs : f.haveSign = false := h
    exact ⟨by rw [hs]; rfl, rfl, by rw [hparen hs]; rfl, by simp [after, isNegative]⟩
  | closing =>
    have hp : f.haveParen = true := h
    exact ⟨rfl, rfl, by rw [hp]; rfl, by simp [after, isNegative]⟩
  | currency =>
    have hc : f.haveCurrency = false := h
    exact ⟨rfl, by rw [hc]; rfl, rfl, by simp [after, isNegative]⟩

variable {affixes : List Affix}

theorem counts_all (hf : Consistent f)
    (h : AdmitsAll f affixes) : Counts f affixes (affixes.foldl after f) := by
  induction affixes generalizing f with
  | nil => exact ⟨rfl, rfl, rfl, by simp⟩
  | cons a affixes ih =>
    obtain ⟨hone, hrest⟩ := h
    have hfirst := counts_after hf hone
    have htail := ih (hf.after a) hrest
    have hcons : a :: affixes = [a] ++ affixes := rfl
    refine ⟨?_, ?_, ?_, ?_⟩
    · rw [List.foldl_cons, htail.sign, hfirst.sign, hcons, List.countP_append]
      omega
    · rw [List.foldl_cons, htail.currency, hfirst.currency, hcons, List.count_append]
      omega
    · grind [hfirst.paren, htail.paren]
    · rw [List.foldl_cons, htail.negative, hfirst.negative, hcons, List.any_append, Bool.or_assoc]

theorem eq_false_of_toNat {b : Bool} {n : ℕ} (h : b.toNat + (n + 1) ≤ 1) : b = false := by grind

theorem admitsAll_of_counts (hsign : f.haveSign.toNat + affixes.countP isSign ≤ 1)
    (hcurrency : f.haveCurrency.toNat + affixes.count .currency ≤ 1)
    (hclosing : .closing ∈ affixes → .opening ∉ affixes ∧ affixes.count .closing ≤ f.haveParen.toNat) :
    AdmitsAll f affixes := by
  induction affixes generalizing f with
  | nil => trivial
  | cons a affixes ih =>
    have htail : a ≠ .closing → .closing ∈ affixes → .opening ∉ affixes ∧
        affixes.count .closing ≤ f.haveParen.toNat := by grind
    cases a with
    | white c =>
      refine ⟨trivial, ih ?_ ?_ (htail fun h => nomatch h)⟩
      · simpa [after, isSign] using hsign
      · simpa [after] using hcurrency
    | sign negative =>
      rw [List.countP_cons_of_pos rfl] at hsign
      have hs := eq_false_of_toNat hsign
      refine ⟨hs, ih ?_ ?_ (htail fun h => nomatch h)⟩
      · rw [hs] at hsign
        simpa [after] using hsign
      · simpa [after] using hcurrency
    | opening =>
      rw [List.countP_cons_of_pos rfl] at hsign
      have hs := eq_false_of_toNat hsign
      refine ⟨hs, ih ?_ ?_ fun hmem => ?_⟩
      · rw [hs] at hsign
        simpa [after] using hsign
      · simpa [after] using hcurrency
      · exact absurd List.mem_cons_self (hclosing (List.mem_cons_of_mem _ hmem)).1
    | closing =>
      have hp : f.haveParen = true := by grind
      refine ⟨hp, ih ?_ ?_ fun hmem => ?_⟩
      · simpa [after, isSign] using hsign
      · simpa [after] using hcurrency
      · grind
    | currency =>
      rw [List.count_cons_self] at hcurrency
      have hc := eq_false_of_toNat hcurrency
      refine ⟨hc, ih ?_ ?_ (htail (by decide))⟩
      · simpa [after, isSign] using hsign
      · grind [after]

/-! ## Token loops -/

theorem spellAffixes_cons (a : Affix) (affixes : List Affix) (rest : List UInt8) :
    spellAffixes (a :: affixes) ++ rest = a.text ++ (spellAffixes affixes ++ rest) := by
  simp [spellAffixes]

theorem spellAffixes_append (as bs : List Affix) :
    spellAffixes (as ++ bs) = spellAffixes as ++ spellAffixes bs := List.flatMap_append

theorem text_ne_nil (a : Affix) : a.text ≠ [] := by
  cases a <;> exact List.cons_ne_nil _ _

/-- What the leading and the trailing loop have in common: an iteration takes an affix that may
stand there and for which the flags leave room, or a run of white space. -/
structure TokenLoop (token : TokenFlags → List UInt8 → Option (TokenFlags × List UInt8))
    (May : Affix → Prop) : Prop where
  space : ∀ c, May (.white c) → isspace c = true ∧ ∀ d, isspace d = true → May (.white d)
  white : ∀ f c s, May (.white c) → token f (c :: s) = some (f, (c :: s).dropWhile isspace)
  other : ∀ f a s, May a → Admits f a → (∀ c, a ≠ .white c) → token f (a.text ++ s) = some (after f a, s)
  sound : ∀ f s f' s', token f s = some (f', s') → ∃ affixes, affixes ≠ [] ∧
    s = spellAffixes affixes ++ s' ∧ (∀ a ∈ affixes, May a) ∧ AdmitsAll f affixes ∧
    f' = affixes.foldl after f

def runLoop (token : TokenFlags → List UInt8 → Option (TokenFlags × List UInt8)) (f : TokenFlags)
    (s : List UInt8) : TokenFlags × List UInt8 := takeTokens token s.length f s

namespace TokenLoop

variable {token : TokenFlags → List UInt8 → Option (TokenFlags × List UInt8)} {May : Affix → Prop}

variable {f f' : TokenFlags} {s s' : List UInt8}

theorem length_lt (h : TokenLoop token May)
    (ht : token f s = some (f', s')) : s'.length < s.length := by
  obtain ⟨affixes, hne, hs, -⟩ := h.sound f s f' s' ht
  obtain ⟨a, affixes, rfl⟩ := List.exists_cons_of_ne_nil hne
  have hpos := List.length_pos_iff.mpr (text_ne_nil a)
  grind [spellAffixes_cons]

theorem takeTokens_eq (h : TokenLoop token May) {fuel : ℕ}
    (hfuel : s.length ≤ fuel) : takeTokens token fuel f s = runLoop token f s := by
  induction fuel using Nat.strong_induction_on generalizing f s with
  | _ fuel ih =>
    cases ht : token f s with
    | none =>
      have hstop : ∀ n, takeTokens token n f s = (f, s) := fun n => by
        cases n <;> simp [takeTokens, ht]
      rw [runLoop, hstop, hstop]
    | some next =>
      have hlt := h.length_lt ht
      obtain ⟨n, hn⟩ : ∃ n, s.length = n + 1 := ⟨s.length - 1, by omega⟩
      obtain ⟨m, hm⟩ : ∃ m, fuel = m + 1 := ⟨fuel - 1, by omega⟩
      grind [runLoop, takeTokens]

theorem runLoop_some (h : TokenLoop token May)
    (ht : token f s = some (f', s')) : runLoop token f s = runLoop token f' s' := by
  have hlt := h.length_lt ht
  obtain ⟨n, hn⟩ : ∃ n, s.length = n + 1 := ⟨s.length - 1, by omega⟩
  rw [runLoop, hn, takeTokens, ht]
  exact h.takeTokens_eq (by omega)

theorem runLoop_none (ht : token f s = none) : runLoop token f s = (f, s) := by
  rw [runLoop]
  cases s.length <;> simp [takeTokens, ht]

theorem runLoop_dropWhile (h : TokenLoop token May) {c : UInt8} (hc : May (.white c)) (f : TokenFlags)
    (s : List UInt8) : runLoop token f (s.dropWhile isspace) = runLoop token f s := by
  cases s with
  | nil => rfl
  | cons d s =>
    by_cases hd : isspace d = true
    · rw [h.runLoop_some (h.white f d s ((h.space c hc).2 d hd))]
    · rw [List.dropWhile_cons_of_neg hd]

theorem runLoop_text (h : TokenLoop token May) {affixes : List Affix}
    (hmay : ∀ a ∈ affixes, May a) (hadmits : AdmitsAll f affixes) {rest : List UInt8}
    (hstop : token (affixes.foldl after f) rest = none) :
    runLoop token f (spellAffixes affixes ++ rest) = (affixes.foldl after f, rest) := by
  induction affixes generalizing f with
  | nil => exact runLoop_none hstop
  | cons a affixes ih =>
    have ha := hmay a List.mem_cons_self
    have htail := ih (fun b hb => hmay b (List.mem_cons_of_mem _ hb)) hadmits.2 hstop
    rw [spellAffixes_cons]
    cases a with
    | white c =>
      have hspace := (h.space c ha).1
      have htext : (Affix.white c).text ++ (spellAffixes affixes ++ rest) =
          c :: (spellAffixes affixes ++ rest) := rfl
      rw [htext, h.runLoop_some (h.white f c _ ha), List.dropWhile_cons_of_pos hspace,
        h.runLoop_dropWhile ha]
      exact htail
    | _ =>
      exact (h.runLoop_some (h.other f _ _ ha hadmits.1 fun c hc => nomatch hc)).trans htail

theorem runLoop_sound (h : TokenLoop token May)
    (hrun : runLoop token f s = (f', s')) : ∃ affixes, s = spellAffixes affixes ++ s' ∧
      (∀ a ∈ affixes, May a) ∧ AdmitsAll f affixes ∧ f' = affixes.foldl after f := by
  induction hlen : s.length using Nat.strong_induction_on generalizing f s with
  | _ n ih =>
    cases ht : token f s with
    | none =>
      rw [runLoop_none ht, Prod.mk.injEq] at hrun
      obtain ⟨rfl, rfl⟩ := hrun
      exact ⟨[], rfl, (fun a ha => absurd ha List.not_mem_nil), trivial, rfl⟩
    | some next =>
      obtain ⟨f1, s1⟩ := next
      have hlt := h.length_lt ht
      rw [h.runLoop_some ht] at hrun
      obtain ⟨as, -, has, hmay, hadmits, hf1⟩ := h.sound f s f1 s1 ht
      obtain ⟨bs, hbs, hmay', hadmits', hf'⟩ := ih s1.length (by omega) hrun rfl
      refine ⟨as ++ bs, ?_, fun a ha => ?_, ?_, ?_⟩
      · rw [has, hbs, spellAffixes_append, List.append_assoc]
      · grind
      · grind [admitsAll_append]
      · rw [hf', hf1, List.foldl_append]

end TokenLoop

/-! ## The two loops -/

section Loops

variable (style : NumberStyles)

/-- What a token takes from the text spells some affixes. -/
def Takes (May : Affix → Prop) (f : TokenFlags) (s : List UInt8)
    (next : TokenFlags × List UInt8) : Prop :=
  ∃ affixes, affixes ≠ [] ∧ s = spellAffixes affixes ++ next.2 ∧ (∀ a ∈ affixes, May a) ∧
    AdmitsAll f affixes ∧ next.1 = affixes.foldl after f

variable {May : Affix → Prop} {f : TokenFlags} {s : List UInt8}

theorem takes_ite {p : Prop} [Decidable p] {t next : TokenFlags × List UInt8}
    {rest : Option (TokenFlags × List UInt8)} (hyes : p → Takes May f s t)
    (hno : rest = some next → Takes May f s next) (h : (if p then some t else rest) = some next) :
    Takes May f s next := by
  split at h
  · next hp => exact Option.some.inj h ▸ hyes hp
  · exact hno h

theorem takes_white (hhead : s.head?.any isspace = true)
    (hmay : ∀ c, isspace c = true → May (.white c)) : Takes May f s (f, s.dropWhile isspace) := by
  have hspell : ∀ l : List UInt8, spellAffixes (l.map white) = l := by
    intro l
    induction l with
    | nil => rfl
    | cons c l ih =>
      rw [List.map_cons, ← List.append_nil (spellAffixes _), spellAffixes_cons, List.append_nil, ih]
      rfl
  have hflags : ∀ l : List UInt8, AdmitsAll f (l.map white) ∧
      f = (l.map white).foldl after f := by
    intro l
    induction l with
    | nil => exact ⟨trivial, rfl⟩
    | cons c l ih => exact ⟨⟨trivial, ih.1⟩, ih.2⟩
  refine ⟨(s.takeWhile isspace).map white, ?_, ?_, fun a ha => ?_, hflags _⟩
  · cases s with
    | nil => cases hhead
    | cons c s =>
      have hc : isspace c = true := hhead
      rw [List.takeWhile_cons_of_pos hc]
      exact List.cons_ne_nil _ _
  · simp [hspell]
  · obtain ⟨c, hc, rfl⟩ := List.mem_map.mp ha
    exact hmay c (List.mem_takeWhile_imp hc)

theorem single (a : Affix) (hmay : May a) (hadmits : Admits f a) {s' : List UInt8}
    (hs : s = a.text ++ s') : Takes May f s (after f a, s') := by
  refine ⟨[a], List.cons_ne_nil _ _, ?_, fun b hb => ?_, ⟨hadmits, trivial⟩, rfl⟩
  · rw [spellAffixes_cons]
    exact hs
  · rw [List.mem_singleton.mp hb]
    exact hmay

theorem sign_text (h : s.head? = some '+'.toUInt8 ∨ s.head? = some '-'.toUInt8) :
    s = (sign (decide (s.head? = some '-'.toUInt8))).text ++ s.tail := by
  cases s with
  | nil => rcases h with h | h <;> cases h
  | cons c s =>
    simp only [List.head?_cons, Option.some.injEq] at h
    rcases h with rfl | rfl <;> rfl

variable {c : UInt8}

theorem head_text (h : s.head? = some c) : s = [c] ++ s.tail := by
  obtain ⟨t, rfl⟩ := List.head?_eq_some_iff.mp h
  rfl

theorem currency_text (h : kCurrencySymbol.isPrefixOf s = true) :
    s = currency.text ++ s.drop kCurrencySymbol.length := by
  obtain ⟨t, rfl⟩ := List.isPrefixOf_iff_prefix.mp h
  rfl

theorem not_head_space (h : isspace c = false) (s : List UInt8) :
    ¬ ((c :: s).head?.any isspace = true) := by simp [h]

theorem head_ne {d : UInt8} (h : c ≠ d) (s : List UInt8) : (c :: s).head? ≠ some d := by simp [h]

theorem eq_false_of_not {b : Bool} (h : (!b) = true) : b = false := by simpa using h

theorem leadingLoop : TokenLoop (leadingToken style) (MayLead style) where
  space c hc := ⟨hc.1, fun d hd => ⟨hd, hc.2⟩⟩
  white f c s hc := by
    rw [leadingToken, if_pos ⟨hc.2, hc.1⟩]
  other f a s hmay hadmits hwhite := by
    cases a with
    | white c => exact absurd rfl (hwhite c)
    | sign negative =>
      have hs : (!f.haveSign) = true := by rw [(hadmits : f.haveSign = false)]; rfl
      cases negative with
      | false =>
        have htext : (sign false).text ++ s = '+'.toUInt8 :: s := rfl
        rw [htext, leadingToken, if_neg fun h => not_head_space (by decide) s h.2,
          if_pos ⟨hmay, hs, Or.inl rfl⟩]
        rfl
      | true =>
        have htext : (sign true).text ++ s = '-'.toUInt8 :: s := rfl
        rw [htext, leadingToken, if_neg fun h => not_head_space (by decide) s h.2,
          if_pos ⟨hmay, hs, Or.inr rfl⟩]
        rfl
    | opening =>
      have hs : (!f.haveSign) = true := by rw [(hadmits : f.haveSign = false)]; rfl
      have htext : opening.text ++ s = '('.toUInt8 :: s := rfl
      rw [htext, leadingToken, if_neg fun h => not_head_space (by decide) s h.2,
        if_neg fun h => h.2.2.elim (head_ne (by decide) s) (head_ne (by decide) s),
        if_pos ⟨hmay, hs, rfl⟩]
      rfl
    | closing => exact hmay.elim
    | currency =>
      have hc : (!f.haveCurrency) = true := by rw [(hadmits : f.haveCurrency = false)]; rfl
      have htext : currency.text ++ s = 0xC2 :: 0xA4 :: s := rfl
      rw [htext, leadingToken, if_neg fun h => not_head_space (by decide) _ h.2,
        if_neg fun h => h.2.2.elim (head_ne (by decide) _) (head_ne (by decide) _),
        if_neg fun h => head_ne (by decide) _ h.2.2, if_pos ⟨hmay, hc, rfl⟩]
      rfl
  sound f s f' s' := by
    refine takes_ite (fun h => takes_white h.2 fun c hc => ⟨hc, h.1⟩) (takes_ite (fun h => ?_)
      (takes_ite (fun h => ?_) (takes_ite (fun h => ?_) nofun)))
    · exact single (.sign _) h.1 (eq_false_of_not h.2.1) (sign_text h.2.2)
    · exact single .opening h.1 (eq_false_of_not h.2.1) (head_text h.2.2)
    · exact single .currency h.1 (eq_false_of_not h.2.1) (currency_text h.2.2)

theorem trailingLoop : TokenLoop (trailingToken style) (MayTrail style) where
  space c hc := ⟨hc.1, fun d hd => ⟨hd, hc.2⟩⟩
  white f c s hc := by
    have hne : ∀ d : UInt8, isspace d = false → c ≠ d := by
      rintro d hd rfl
      rw [hc.1] at hd
      cases hd
    have hprefix : ¬ (kCurrencySymbol.isPrefixOf (c :: s) = true) := by
      intro hp
      obtain ⟨t, ht⟩ := List.isPrefixOf_iff_prefix.mp hp
      exact hne 0xC2 (by decide) (List.cons.inj ht).1.symm
    have hhead : ∀ d : UInt8, isspace d = false → (c :: s).head? ≠ some d := by
      intro d hd heq
      grind
    rw [trailingToken, if_neg fun h => h.2.2.elim (hhead _ (by decide)) (hhead _ (by decide)),
      if_neg fun h => hhead _ (by decide) h.2, if_neg fun h => hprefix h.2.2,
      if_pos ⟨hc.2, hc.1⟩]
  other f a s hmay hadmits hwhite := by
    cases a with
    | white c => exact absurd rfl (hwhite c)
    | sign negative =>
      have hs : (!f.haveSign) = true := by rw [(hadmits : f.haveSign = false)]; rfl
      cases negative with
      | false =>
        have htext : (sign false).text ++ s = '+'.toUInt8 :: s := rfl
        rw [htext, trailingToken, if_pos ⟨hmay, hs, Or.inl rfl⟩]
        rfl
      | true =>
        have htext : (sign true).text ++ s = '-'.toUInt8 :: s := rfl
        rw [htext, trailingToken, if_pos ⟨hmay, hs, Or.inr rfl⟩]
        rfl
    | opening => exact hmay.elim
    | closing =>
      have htext : closing.text ++ s = ')'.toUInt8 :: s := rfl
      rw [htext, trailingToken,
        if_neg fun h => h.2.2.elim (head_ne (by decide) s) (head_ne (by decide) s),
        if_pos ⟨hadmits, rfl⟩]
      rfl
    | currency =>
      have hc : (!f.haveCurrency) = true := by rw [(hadmits : f.haveCurrency = false)]; rfl
      have htext : currency.text ++ s = 0xC2 :: 0xA4 :: s := rfl
      rw [htext, trailingToken,
        if_neg fun h => h.2.2.elim (head_ne (by decide) _) (head_ne (by decide) _),
        if_neg fun h => head_ne (by decide) _ h.2, if_pos ⟨hmay, hc, rfl⟩]
      rfl
  sound f s f' s' := by
    refine takes_ite (fun h => ?_) (takes_ite (fun h => ?_) (takes_ite (fun h => ?_)
      (takes_ite (fun h => takes_white h.2 fun c hc => ⟨hc, h.1⟩) nofun)))
    · exact single (.sign _) h.1 (eq_false_of_not h.2.1) (sign_text h.2.2)
    · exact single .closing trivial h.1 (head_text h.2)
    · exact single .currency h.1 (eq_false_of_not h.2.1) (currency_text h.2.2)

end Loops

/-! ## Where the loops stop -/

section Stops

variable {style : NumberStyles}

theorem leadingToken_none (f : TokenFlags) {c : UInt8} (h : isdigit c = true ∨ c = kDecimalSeparator)
    (s : List UInt8) : leadingToken style f (c :: s) = none := by
  have hne : ∀ d : UInt8, isdigit d = false → d ≠ kDecimalSeparator → c ≠ d := by grind
  have hspace : isspace c = false := by
    by_contra hs
    simp only [isspace, Bool.not_eq_false, Bool.or_eq_true, Bool.and_eq_true, decide_eq_true_eq,
      UInt8.le_iff_toNat_le] at hs
    rcases hs with hs | hs
    · exact hne _ (by decide) (by decide) hs
    · rcases h with h | h
      · simp only [isdigit, Bool.and_eq_true, decide_eq_true_eq, UInt8.le_iff_toNat_le] at h
        have h0 : '0'.toUInt8.toNat = 48 := rfl
        have h13 : (13 : UInt8).toNat = 13 := rfl
        omega
      · rw [h] at hs
        exact absurd hs.2 (by decide)
  have hprefix : ¬ (kCurrencySymbol.isPrefixOf (c :: s) = true) := by
    intro hp
    obtain ⟨t, ht⟩ := List.isPrefixOf_iff_prefix.mp hp
    exact hne 0xC2 (by decide) (by decide) (List.cons.inj ht).1.symm
  rw [leadingToken, if_neg fun h => not_head_space hspace s h.2,
    if_neg fun h => h.2.2.elim (head_ne (hne _ (by decide) (by decide)) s)
      (head_ne (hne _ (by decide) (by decide)) s),
    if_neg fun h => head_ne (hne _ (by decide) (by decide)) s h.2.2, if_neg fun h => hprefix h.2.2]

theorem trailingToken_nil (f : TokenFlags) : trailingToken style f [] = none := by
  simp [trailingToken, kCurrencySymbol]

theorem mantissa_head {whole : List UInt8} {fraction : Option (List UInt8)}
    (h : Mantissa style whole fraction) (hne : mantissaDigits whole fraction ≠ []) (rest : List UInt8) :
    ∃ c t, whole ++ (pointText fraction ++ rest) = c :: t ∧ (isdigit c = true ∨ c = kDecimalSeparator) := by
  cases whole with
  | cons c whole =>
    refine ⟨c, _, rfl, ?_⟩
    rcases h.wholeBytes c List.mem_cons_self with hc | ⟨hc, -⟩
    · exact Or.inl hc
    · exact absurd (congrArg some hc) h.wholeHead
  | nil =>
    cases fraction with
    | none => exact absurd rfl hne
    | some bytes => exact ⟨kDecimalSeparator, bytes ++ rest, rfl, Or.inr rfl⟩

theorem endsNumber_trailing {affixes : List Affix} (h : ∀ a ∈ affixes, a.MayTrail style) :
    EndsNumber (spellAffixes affixes) := by
  cases affixes with
  | nil => exact fun c hc => nomatch hc
  | cons a affixes =>
    rw [← List.append_nil (spellAffixes _), spellAffixes_cons]
    intro c hc
    have ha := h a List.mem_cons_self
    cases a with
    | white d =>
      rw [text, List.singleton_append, List.head?_cons, Option.mem_some_iff] at hc
      rw [← hc]
      have hspace := ha.1
      have hle : d.toNat ≤ 32 := by
        simp only [isspace, Bool.or_eq_true, Bool.and_eq_true, decide_eq_true_eq,
          UInt8.le_iff_toNat_le] at hspace
        rcases hspace with rfl | hspace
        · decide
        · have h13 : (13 : UInt8).toNat = 13 := rfl
          omega
      have hne : ∀ e : UInt8, 32 < e.toNat → d ≠ e := by
        rintro e he rfl
        omega
      refine ⟨?_, hne _ (by decide), hne _ (by decide), hne _ (by decide), hne _ (by decide)⟩
      by_contra hdigit
      simp only [isdigit, Bool.not_eq_false, Bool.and_eq_true, decide_eq_true_eq,
        UInt8.le_iff_toNat_le] at hdigit
      have h0 : '0'.toUInt8.toNat = 48 := rfl
      omega
    | sign negative =>
      have hc' : c = if negative then '-'.toUInt8 else '+'.toUInt8 := (Option.mem_some_iff.mp hc).symm
      cases negative <;> rw [hc'] <;> decide
    | opening => exact ha.elim
    | closing =>
      have hc' : c = ')'.toUInt8 := (Option.mem_some_iff.mp hc).symm
      rw [hc']
      decide
    | currency =>
      have hc' : c = 0xC2 := (Option.mem_some_iff.mp hc).symm
      rw [hc']
      decide

end Stops

/-! ## The scan of a whole number -/

section Number

variable {style : NumberStyles}

variable {p : Numeral}

theorem mantissa_of_wellFormed (h : p.WellFormed style) :
    Mantissa style p.whole p.fraction := ⟨h.whole, h.wholeHead, h.fraction⟩

theorem runLoop_trailing (f : TokenFlags) (s : List UInt8) :
    runLoop (trailingToken style) f
        (if style.has .allowTrailingWhite then s.dropWhile isspace else s) =
      runLoop (trailingToken style) f s := by
  split
  case isTrue h => exact (trailingLoop style).runLoop_dropWhile (c := 32) ⟨by decide, h⟩ f s
  case isFalse => rfl

theorem flags_of_wellFormed (h : p.WellFormed style) :
    AdmitsAll {} p.leading ∧ AdmitsAll (p.leading.foldl after {}) p.trailing ∧
      (p.trailing.foldl after (p.leading.foldl after {})).negative = p.negative ∧
      (p.trailing.foldl after (p.leading.foldl after {})).haveParen = false := by
  have hclosing : .closing ∉ p.leading := fun hmem => h.leading _ hmem
  have hopening : .opening ∉ p.trailing := fun hmem => h.trailing _ hmem
  have hsign := h.oneSign
  have hcurrency := h.oneCurrency
  rw [List.countP_append] at hsign
  rw [List.count_append] at hcurrency
  have hlead : AdmitsAll {} p.leading := admitsAll_of_counts
    (by simp only [Bool.toNat_false]; omega) (by simp only [Bool.toNat_false]; omega)
    fun hmem => absurd hmem hclosing
  have hleft := counts_all consistent_start hlead
  have hconsistent : ∀ as : List Affix, ∀ f, Consistent f → Consistent (as.foldl after f) := by
    intro as
    induction as with
    | nil => exact fun f hf => hf
    | cons a as ih => exact fun f hf => ih _ (hf.after a)
  have hsignLeft := hleft.sign
  have hcurrencyLeft := hleft.currency
  have hparenLeft := hleft.paren
  have hzero : p.leading.count .closing = 0 := List.count_eq_zero.mpr hclosing
  simp only [Bool.toNat_false, zero_add] at hsignLeft hcurrencyLeft hparenLeft
  have htrail : AdmitsAll (p.leading.foldl after {}) p.trailing := admitsAll_of_counts
    (by omega) (by omega) fun _ => ⟨hopening, by rw [← h.paired]; omega⟩
  have hright := counts_all (hconsistent p.leading {} consistent_start) htrail
  refine ⟨hlead, htrail, ?_, ?_⟩
  · rw [hright.negative, hleft.negative, Numeral.negative, List.any_append, Bool.false_or]
  · grind [hright.paren, h.paired]

/-- A text of the grammar is scanned to its parts. -/
theorem scanNumber_text (h : p.WellFormed style) (hlen : p.digits.length < 2 ^ 31) :
    ∃ st sig E, scanNumber p.text style =
        pure (some (normalize p.negative { st.scan with scale := st.scan.scale + E })) ∧
      st.scan.sawDecimal = p.fraction.isSome ∧
      Scanned p.digits (p.fraction.getD []).length sig st ∧
      (p.exponentDigits ≤ 8 → E = p.exponentValue) := by
  obtain ⟨hlead, htrail, hnegative, hparen⟩ := flags_of_wellFormed h
  have hmantissa := mantissa_of_wellFormed h
  have hends := endsNumber_trailing h.trailing
  obtain ⟨st, sig, E, hscan, hpoint, hscanned, hshort⟩ :=
    scanDigitsAndExponent_text hmantissa h.exponent hends h.nonempty hlen
  refine ⟨st, sig, E, ?_, hpoint, hscanned, hshort⟩
  have hany : st.scan.any = true := by rw [hscanned.any]; exact decide_eq_true h.nonempty
  have hleading : takeTokens (leadingToken style) p.text.length {} p.text = (p.leading.foldl after {},
      p.whole ++ (pointText p.fraction ++ (exponentText p.exponent ++ spellAffixes p.trailing))) := by
    refine (leadingLoop style).runLoop_text h.leading hlead ?_
    obtain ⟨c, t, hct, hc⟩ := mantissa_head hmantissa h.nonempty
      (exponentText p.exponent ++ spellAffixes p.trailing)
    rw [hct]
    exact leadingToken_none _ hc t
  have htrailing : ∀ s, s = (if style.has .allowTrailingWhite then
        (spellAffixes p.trailing).dropWhile isspace else spellAffixes p.trailing) →
      takeTokens (trailingToken style) s.length (p.leading.foldl after {}) s =
        (p.trailing.foldl after (p.leading.foldl after {}), []) := by
    rintro s rfl
    have hrun := (trailingLoop style).runLoop_text h.trailing htrail
      (trailingToken_nil _ : trailingToken style _ [] = none)
    rw [List.append_nil] at hrun
    exact (runLoop_trailing _ _).trans hrun
  grind [scanNumber]

variable (style) in
/-- The scan ends, and accepts only texts of the grammar. -/
theorem scanNumber_total {s : List UInt8} (hlen : s.countP isdigit < 2 ^ 31) :
    ∃ o, scanNumber s style = pure o ∧ (o ≠ none → InGrammar style s) := by
  obtain ⟨f1, s1, hleading⟩ : ∃ f1 s1, takeTokens (leadingToken style) s.length {} s = (f1, s1) :=
    ⟨_, _, rfl⟩
  obtain ⟨leading, rfl, hmayLead, hlead, hf1⟩ := (leadingLoop style).runLoop_sound hleading
  have hlen1 : s1.countP isdigit < 2 ^ 31 := by
    rw [List.countP_append] at hlen
    omega
  obtain ⟨whole, fraction, exponent, s2, scan, rfl, hmantissa, hexponent, hscan, hany⟩ :=
    exists_scan style hlen1
  obtain ⟨f2, s3, htrailing⟩ : ∃ f2 s3, runLoop (trailingToken style) f1
      (if style.has .allowTrailingWhite then s2.dropWhile isspace else s2) = (f2, s3) := ⟨_, _, rfl⟩
  have htrailing' := htrailing
  rw [runLoop_trailing] at htrailing'
  obtain ⟨trailing, rfl, hmayTrail, htrail, hf2⟩ := (trailingLoop style).runLoop_sound htrailing'
  refine ⟨_, by rw [scanNumber, hleading]; simp only [hscan, pure_bind]; rfl, ?_⟩
  by_cases hnone : scan.any = true
  · unfold runLoop at htrailing
    simp only [hnone, Bool.not_true, Bool.false_eq_true, if_false, htrailing]
    split
    case isTrue => exact fun h => absurd rfl h
    case isFalse hparen =>
      split
      case isTrue => exact fun h => absurd rfl h
      case isFalse hrest =>
        intro _
        rw [ne_eq, not_not] at hrest
        have hleft := counts_all consistent_start hlead
        have hall : AdmitsAll {} (leading ++ trailing) :=
          (admitsAll_append _ _ _).mpr ⟨hlead, by rw [← hf1]; exact htrail⟩
        have hcounts := counts_all consistent_start hall
        rw [List.foldl_append, ← hf1, ← hf2] at hcounts
        have hsign := hcounts.sign
        have hcurrency := hcounts.currency
        have hpar := hcounts.paren
        have hsignLe := Bool.toNat_le f2.haveSign
        have hcurrencyLe := Bool.toNat_le f2.haveCurrency
        have hclosing : leading.count .closing = 0 :=
          List.count_eq_zero.mpr fun hmem => hmayLead _ hmem
        have hopening : trailing.count .opening = 0 :=
          List.count_eq_zero.mpr fun hmem => hmayTrail _ hmem
        have hdigits : mantissaDigits whole fraction ≠ [] := by grind
        rw [List.count_append, List.count_append, Bool.eq_false_iff.mpr hparen] at hpar
        simp only [Bool.toNat_false, zero_add] at hsign hcurrency hpar
        refine ⟨⟨leading, whole, fraction, exponent, trailing⟩, ⟨hmayLead, hmayTrail,
          by simp only; omega, by simp only; omega, by simp only; omega,
          hmantissa.wholeBytes, hmantissa.wholeHead,
          hmantissa.fractionBytes, hdigits, hexponent⟩, ?_⟩
        rw [hrest, List.append_nil]
        rfl
  · simp [hnone]

end Number

/-! ## Results -/

variable {p : Numeral}

theorem number_normalize {sig : ℕ} {st : MantissaState}
    (h : Scanned p.digits (p.fraction.getD []).length sig st) (E : ℤ) :
    p.number = (if (IntegerNumberStylesParser.normalize p.negative
      { st.scan with scale := st.scan.scale + E }).1 then -1 else 1) *
      p.magnitude := by
  unfold IntegerNumberStylesParser.normalize
  split
  case isTrue hcount =>
    have hsig : sig = 0 := by
      by_contra hsig
      have hcount' : st.scan.digitsCount = 0 := hcount
      have := (h.significant hsig).2.1
      omega
    have hzero : p.magnitude = 0 := by
      rw [Numeral.magnitude, h.value, hsig, Nat.zero_mul, Nat.cast_zero, zero_mul]
    rw [Numeral.number, hzero, mul_zero, mul_zero]
  case isFalse => rfl

theorem signedResult_spec {negative : Bool} {m : ℕ}
    (h : p.number = (if negative then -1 else 1) * (m : ℚ)) : SignedResult p (signedResult negative m) := by
  have hrange : ∀ {n : ℤ}, p.number = n → ∀ v : Int64, (v.toInt : ℚ) = p.number → v.toInt = n := by
    intro n hn v hv
    rw [hn] at hv
    exact_mod_cast hv
  unfold signedResult
  cases negative with
  | true =>
    have hn : p.number = ((-(m : ℤ) : ℤ) : ℚ) := by
      rw [h, if_pos rfl]
      push_cast
      ring
    rw [if_pos rfl]
    split
    case isTrue hbig =>
      intro v hv
      have := hrange hn v hv
      have := v.le_toInt
      omega
    case isFalse hsmall =>
      rw [SignedResult, hn]
      split
      case isTrue hmin =>
        rw [Int64.toInt_minValue, hmin]
        norm_num
      case isFalse => rw [Int64.toInt_neg_ofNat_of_le (by omega)]
  | false =>
    have hn : p.number = ((m : ℤ) : ℚ) := by simp [h]
    rw [if_neg (by decide)]
    split
    case isTrue hbig =>
      intro v hv
      have := hrange hn v hv
      have := v.toInt_lt
      omega
    case isFalse hsmall => rw [SignedResult, hn, Int64.toInt_ofNat_of_lt (by omega)]

def concludeSigned (negative : Bool) (scan : DigitScan) : ParseOutcome Int64 :=
  match tryFoldScale scan with
  | none => .overflowed
  | some magnitude => signedResult negative magnitude

def concludeUnsigned (negative : Bool) (scan : DigitScan) : ParseOutcome UInt64 :=
  if negative then .overflowed
  else
    match tryFoldScale scan with
    | none => .overflowed
    | some magnitude => .parsed (UInt64.ofNat magnitude)

theorem tryParseSignedCore_eq (s : List UInt8) (style : NumberStyles) :
    tryParseSignedCore s style = scanNumber s style >>= fun o =>
      pure (o.elim .rejected fun result => concludeSigned result.1 result.2) := by
  grind [tryParseSignedCore, concludeSigned]

theorem tryParseUnsignedCore_eq (s : List UInt8) (style : NumberStyles) :
    tryParseUnsignedCore s style = scanNumber s style >>= fun o =>
      pure (o.elim .rejected fun result => concludeUnsigned result.1 result.2) := by
  grind [tryParseUnsignedCore, concludeUnsigned]

variable {s : List UInt8}

variable {style : NumberStyles}

theorem parses_of {α : Type} {run : Run Exception (ParseOutcome α)}
    {conclude : Bool → DigitScan → ParseOutcome α} {Result : Numeral → ParseOutcome α → Prop}
    (hdigits : s.countP isdigit < 2 ^ 31)
    (hrun : run = scanNumber s style >>= fun o =>
      pure (o.elim .rejected fun result => conclude result.1 result.2))
    (haccepts : ∀ negative scan, conclude negative scan ≠ .rejected)
    (hresult : ∀ (p : Numeral) (st : MantissaState) (sig : ℕ) (scan : DigitScan),
      Scanned p.digits (p.fraction.getD []).length sig st → st.scan.sawDecimal = p.fraction.isSome →
      scan = { st.scan with scale := st.scan.scale + p.exponentValue } →
      Result p (conclude (normalize p.negative scan).1 (normalize p.negative scan).2)) :
    Parses run Result style s := by
  obtain ⟨o, ho, hgrammar⟩ := scanNumber_total style hdigits
  have hlength : ∀ p : Numeral, p.text = s → p.digits.length < 2 ^ 31 := by
    rintro p rfl
    refine lt_of_le_of_lt ?_ hdigits
    refine (length_mantissaDigits_le p.whole p.fraction
      (exponentText p.exponent ++ spellAffixes p.trailing)).trans ?_
    exact (List.sublist_append_right (spellAffixes p.leading) _).countP_le
  refine ⟨_, by rw [hrun, ho, pure_bind], ⟨fun haccepted => hgrammar ?_, ?_⟩, ?_⟩
  · rintro rfl
    exact haccepted rfl
  · rintro ⟨p, hp, htext⟩
    obtain ⟨st, sig, E, hscan, -⟩ := scanNumber_text hp (hlength p htext)
    rw [htext, ho, Run.pure_inj] at hscan
    rw [hscan]
    exact haccepts _ _
  · intro p hp htext hshort
    obtain ⟨st, sig, E, hscan, hpoint, hscanned, hE⟩ := scanNumber_text hp (hlength p htext)
    rw [htext, ho, Run.pure_inj] at hscan
    rw [hscan, hE hshort]
    exact hresult p st sig _ hscanned hpoint rfl

theorem parses_signed (style : NumberStyles) (hdigits : s.countP isdigit < 2 ^ 31) :
    Parses (tryParseSignedCore s style) SignedResult style s := by
  refine parses_of hdigits (tryParseSignedCore_eq s style) (fun negative scan => ?_)
    fun p st sig scan hscanned _ hscan => ?_
  · grind [concludeSigned, signedResult]
  · have hfold := foldScale_spec hscanned p.exponentValue p.negative (q := p.magnitude) rfl
    have hnumber := number_normalize hscanned p.exponentValue
    rw [← hscan] at hfold hnumber
    unfold concludeSigned
    cases hm : tryFoldScale (normalize p.negative scan).2 with
    | some m =>
      rw [hm] at hfold
      rw [← hfold.2] at hnumber
      exact signedResult_spec hnumber
    | none =>
      rw [hm] at hfold
      intro v hv
      have hlo := v.le_toInt
      have hhi := v.toInt_lt
      refine hfold v.toInt.natAbs (by omega) ?_
      have hsquare : (v.toInt.natAbs : ℚ) = |(v.toInt : ℚ)| := by simp
      have hpos : 0 ≤ p.magnitude := by
        rw [Numeral.magnitude]
        positivity
      rw [hsquare, hv, hnumber, abs_mul, abs_of_nonneg hpos]
      cases (normalize p.negative scan).1 <;> simp

theorem parses_unsigned (style : NumberStyles) (hdigits : s.countP isdigit < 2 ^ 31) :
    Parses (tryParseUnsignedCore s style) StrictUnsignedResult style s := by
  refine parses_of hdigits (tryParseUnsignedCore_eq s style) (fun negative scan => ?_)
    fun p st sig scan hscanned hpoint hscan => ?_
  · grind [concludeUnsigned]
  · have hfold := foldScale_spec hscanned p.exponentValue p.negative (q := p.magnitude) rfl
    have hnumber := number_normalize hscanned p.exponentValue
    rw [← hscan] at hfold hnumber
    unfold concludeUnsigned
    cases hneg : (normalize p.negative scan).1 with
    | true =>
      -- the sign was kept: there is a digit other than zero, or a decimal point
      rw [hneg, if_pos rfl] at hnumber
      have hsign : p.negative = true := by grind [IntegerNumberStylesParser.normalize]
      by_cases hfraction : p.fraction.isSome = true
      · exact Or.inl ⟨hsign, hfraction⟩
      · refine Or.inr fun v hv => ?_
        have hcount : st.scan.digitsCount ≠ 0 := by grind [IntegerNumberStylesParser.normalize]
        have hsig : sig ≠ 0 := fun hsig => hcount (hscanned.zero hsig).1
        have hvalue : 0 < Printed.value 10 p.digits := by
          rw [hscanned.value]
          exact Nat.mul_pos (Nat.pos_of_ne_zero hsig) (by positivity)
        have hmagnitude : 0 < p.magnitude := by
          rw [Numeral.magnitude]
          positivity
        linarith
    | false =>
      rw [hneg, if_neg (by decide), one_mul] at hnumber
      cases hm : tryFoldScale (normalize p.negative scan).2 with
      | some m =>
        rw [hm] at hfold
        refine ⟨?_, ?_⟩
        · grind [IntegerNumberStylesParser.normalize]
        · rw [UInt64.toNat_ofNat_of_lt' hfold.1, hnumber]
          exact hfold.2
      | none =>
        rw [hm] at hfold
        refine Or.inr fun v hv => ?_
        rw [hnumber] at hv
        exact hfold v.toNat v.toNat_lt hv

/-- **The integer parsers accept the grammar of the style, and return the number**: on every string
with fewer than `2 ^ 31` digits both cores accept the strings of the style's grammar and no
others; the result is the number denoted, or an overflow where it is no 64-bit integer, and
for the unsigned core also where it is a negative zero with a decimal point. -/
theorem parses (style : NumberStyles) (s : List UInt8) (hdigits : s.countP isdigit < 2 ^ 31) :
    Parses (tryParseSignedCore s style) SignedResult style s ∧
      Parses (tryParseUnsignedCore s style) StrictUnsignedResult style s :=
  ⟨parses_signed style hdigits, parses_unsigned style hdigits⟩

def bytes (text : String) : List UInt8 := text.toList.map Char.toUInt8

/-- The style `Any`, on a number with all the parts but a currency symbol. -/
theorem parses_any : Parses (tryParseSignedCore (bytes " (1,234.50E2) ") 0x1FF#32) SignedResult 0x1FF#32
    (bytes " (1,234.50E2) ") :=
  (parses 0x1FF#32 (bytes " (1,234.50E2) ") (by decide)).1

/-! ## What is left out -/

theorem scanMantissa_zeros (style : NumberStyles) (k : ℕ) (st : MantissaState)
    (hany : st.scan.any = true) (hnonzero : st.sawNonZero = true) (hlo : 0 ≤ st.pendingZeros)
    (hhi : st.pendingZeros + k < 2 ^ 31) (rest : List UInt8) :
    ∃ st', scanMantissa style (List.replicate k '0'.toUInt8 ++ rest) st = scanMantissa style rest st' ∧
      st'.scan.any = true ∧ st'.sawNonZero = true ∧ st'.pendingZeros = st.pendingZeros + k := by
  induction k generalizing st with
  | zero => exact ⟨st, rfl, hany, hnonzero, by simp⟩
  | succ k ih =>
    obtain ⟨st1, htake, hany1, hnonzero1, hpending1⟩ : ∃ st1, takeDigit 0 st = pure st1 ∧
        st1.scan.any = true ∧ st1.sawNonZero = true ∧ st1.pendingZeros = st.pendingZeros + 1 := by
      have henter : enterDigit 0 { st with scan := { st.scan with any := true } } =
          pure { st with scan := { st.scan with any := true }, sawNonZero := true,
                         pendingZeros := st.pendingZeros + 1 } := by
        unfold enterDigit
        simp only [ne_eq, not_true_eq_false, if_false]
        rw [Run.signed_eq_pure (by decide) (by omega) (by omega), pure_bind]
      exact ⟨_, takeDigit_entered (Or.inr hnonzero) henter rfl rfl, rfl, rfl, rfl⟩
    obtain ⟨st', hrun, hany', hnonzero', hpending'⟩ :=
      ih st1 hany1 hnonzero1 (by omega) (by omega)
    refine ⟨st', ?_, hany', hnonzero', by rw [hpending', hpending1]; push_cast; ring⟩
    have hdigit : digit '0'.toUInt8 = 0 := rfl
    rw [List.replicate_succ, List.cons_append, scanMantissa, if_pos (by decide), hdigit, htake,
      pure_bind, hrun]

theorem scanMantissa_overflows (style : NumberStyles) :
    (scanMantissa style ('1'.toUInt8 :: List.replicate (2 ^ 31) '0'.toUInt8) {}).clean = false := by
  have hone : takeDigit (digit '1'.toUInt8) {} = pure
      { scan := { magnitude := 1, digitsCount := 1, scale := 1, any := true }, sawNonZero := true } := rfl
  have hcount : 2 ^ 31 = (2 ^ 31 - 1) + 1 := by norm_num
  have hsplit : List.replicate (2 ^ 31) '0'.toUInt8 =
      List.replicate (2 ^ 31 - 1) '0'.toUInt8 ++ ['0'.toUInt8] :=
    (congrArg (fun n => List.replicate n '0'.toUInt8) hcount).trans List.replicate_succ'
  obtain ⟨st', hrun, -, hnonzero, hpending⟩ := scanMantissa_zeros style (2 ^ 31 - 1)
    { scan := { magnitude := 1, digitsCount := 1, scale := 1, any := true }, sawNonZero := true }
    rfl rfl le_rfl (by norm_num) ['0'.toUInt8]
  have hfull : st'.pendingZeros = 2147483647 := by rw [hpending]; norm_num
  have hdigit : digit '0'.toUInt8 = 0 := rfl
  have hunclean : (takeDigit 0 st').clean = false := by
    unfold takeDigit enterDigit
    simp only [ne_eq, not_true_eq_false, false_or, if_false]
    rw [if_pos hnonzero, hfull]
    rfl
  rw [scanMantissa, if_pos (by decide), hone, pure_bind, hsplit, hrun, scanMantissa,
    if_pos (by decide), hdigit]
  exact Run.clean_bind_of_not hunclean _

def negativeZero : List UInt8 := bytes "-0.0"

def longOne : List UInt8 := '1'.toUInt8 :: List.replicate (2 ^ 31) '0'.toUInt8

theorem clean_scanNumber {c : UInt8} (hc : isdigit c = true)
    (h : (scanMantissa style (c :: s) {}).clean = false) : (scanNumber (c :: s) style).clean = false := by
  have hlead : takeTokens (leadingToken style) (c :: s).length {} (c :: s) = ({}, c :: s) :=
    TokenLoop.runLoop_none (leadingToken_none {} (Or.inl hc) s)
  have hscan : (scanDigitsAndExponent (c :: s) style).clean = false := Run.clean_bind_of_not h _
  rw [scanNumber, hlead]
  exact Run.clean_bind_of_not hscan _

/-- The unsigned core overflows on `-0.0`, though that is zero; and on a one with `2 ^ 31` zeros a
counter of the scan overflows. -/
theorem not_parses :
    ¬ Parses (tryParseUnsignedCore negativeZero 0x6F#32) UnsignedResult 0x6F#32 negativeZero ∧
      ¬ Parses (tryParseSignedCore longOne 0x07#32) SignedResult 0x07#32 longOne := by
  constructor
  · rintro ⟨outcome, hrun, -, hresult⟩
    have hoverflow : tryParseUnsignedCore negativeZero 0x6F#32 = pure .overflowed := by decide
    rw [hoverflow, Run.pure_inj] at hrun
    let p : Numeral := ⟨[.sign true], bytes "0", some (bytes "0"), none, []⟩
    have hwellFormed : p.WellFormed 0x6F#32 := by
      refine ⟨?_, fun a ha => absurd ha List.not_mem_nil, by decide, by decide, by decide, ?_,
        by decide, ?_, by decide, fun e he => nomatch he⟩
      · intro a ha
        rw [List.mem_singleton.mp ha]
        exact (by decide : NumberStyles.has 0x6F#32 .allowLeadingSign = true)
      · exact fun c hc => Or.inl ((List.mem_singleton.mp hc) ▸ by decide)
      · intro f hf
        rw [Option.mem_some_iff] at hf
        rw [← hf]
        exact ⟨by decide, fun c hc => (List.mem_singleton.mp hc) ▸ by decide⟩
    have hvalue : Printed.value 10 p.digits = 0 := by decide
    have hnumber : p.number = 0 := by
      rw [Numeral.number, Numeral.magnitude, hvalue, Nat.cast_zero, zero_mul, mul_zero]
    have hright := hresult p hwellFormed (by decide) (by decide)
    rw [← hrun] at hright
    refine hright 0 ?_
    rw [hnumber]
    rfl
  · rintro ⟨outcome, hrun, -⟩
    have hscan : (scanNumber longOne 0x07#32).clean = false := by
      exact clean_scanNumber (by decide) (scanMantissa_overflows 0x07#32)
    have hclean := congrArg Run.clean hrun
    rw [tryParseSignedCore_eq, Run.clean_bind_of_not hscan] at hclean
    cases hclean

end SharpRuntime.Analysis.NumberStyles
