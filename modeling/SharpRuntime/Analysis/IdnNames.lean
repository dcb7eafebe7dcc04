import SharpRuntime.Analysis.Punycode
import SharpRuntime.Analysis.Utf8Scalar
import SharpRuntime.Interface.DomainName

/-!
# Names come back

Both directions of `IdnMapping` convert a name label by label.  A label in ASCII is put in lower
case and stays as it is after that; any other one is coded, and what is decoded is the label in
lower case.  So the name that comes back is the name that went in, normalized, and the conversion to
ASCII finds nothing left to convert in its own result.
-/

set_option autoImplicit false

namespace SharpRuntime.Analysis.IdnNames

open Machine Machine.Utf8 Machine.Bootstring
open Model Model.IdnMapping Model.Utf8Scalar
open Interface Punycode Utf8Scalar
open Relabelled

/-! ## UTF-8 -/

variable {s : List UInt8} {i c : ℕ}

theorem nextCodePoint_of_read? (hi : i < s.length) {n : ℕ}
    (h : utf8.read? (s.drop i) = some (c, n)) (out : List ℕ) :
    nextCodePoint s (i, out) = pure (i + n, out ++ [c]) := by
  have hwindow : window s s.length i = s.drop i := by rw [window, List.take_length]
  have hstep := ((accepts_iff hi (Nat.le_refl _) c n).1).mpr (hwindow ▸ h)
  simp only [nextCodePoint, hstep]

variable {out : List ℕ} {p : ℕ × List ℕ}

theorem read?_of_nextCodePoint (hi : i < s.length) (h : (nextCodePoint s (i, out)).outcome = .returned p) :
    ∃ c n, utf8.read? (s.drop i) = some (c, n) ∧ p = (i + n, out ++ [c]) := by
  have hwindow : window s s.length i = s.drop i := by rw [window, List.take_length]
  rcases tryDecodeUtf8Scalar_follows hi (Nat.le_refl _) with ⟨c, n, hread, hstep⟩ | ⟨-, hstep, -⟩
  · refine ⟨c, n, hwindow ▸ hread, ?_⟩
    simp only [nextCodePoint, hstep] at h
    cases h
    rfl
  · exfalso
    dsimp only [nextCodePoint] at h
    generalize tryDecodeUtf8Scalar s s.length i = step at h hstep
    obtain ⟨codePoint, length⟩ := step
    cases hstep
    cases h

theorem encodeAll_of_loop {fuel : ℕ}
    (h : (Run.whileLoop (fun p : ℕ × List ℕ => decide (p.1 < s.length)) (nextCodePoint s)
      fuel (i, out)).outcome = .returned p) :
    ∃ cs, (∀ c ∈ cs, Scalar c) ∧ s.drop i = utf8.encodeAll cs ∧ p.2 = out ++ cs := by
  induction fuel generalizing i out with
  | zero =>
    by_cases hi : i < s.length
    · rw [Run.whileLoop, if_pos (decide_eq_true hi)] at h
      cases h
    · rw [Run.whileLoop_exit (p := fun p : ℕ × List ℕ => p.1 < s.length) hi] at h
      cases h
      exact ⟨[], List.forall_mem_nil _, List.drop_eq_nil_of_le (Nat.not_lt.mp hi), (List.append_nil _).symm⟩
  | succ fuel ih =>
    by_cases hi : i < s.length
    · rw [Run.whileLoop_enter (p := fun p : ℕ × List ℕ => p.1 < s.length) hi] at h
      obtain ⟨p', hnext, hloop⟩ := Run.outcome_bind_eq_returned h
      obtain ⟨c, n, hread, rfl⟩ := read?_of_nextCodePoint hi hnext
      obtain ⟨cs, hcs, hrest, hout⟩ := ih hloop
      obtain ⟨hc, rfl, rest, hdrop⟩ := utf8.of_read? hread
      refine ⟨c :: cs, ?_, ?_, ?_⟩
      · grind
      · rw [← List.drop_drop, hdrop, List.drop_left] at hrest
        rw [hdrop, utf8.encodeAll_cons, hrest]
      · rw [hout, List.append_assoc, List.singleton_append]
    · rw [Run.whileLoop_exit (p := fun p : ℕ × List ℕ => p.1 < s.length) hi] at h
      cases h
      exact ⟨[], List.forall_mem_nil _, List.drop_eq_nil_of_le (Nat.not_lt.mp hi), (List.append_nil _).symm⟩

variable {cs : List ℕ}

theorem loop_encodeAll (hcs : ∀ c ∈ cs, Scalar c) (fuel : ℕ)
    (hs : s.drop i = utf8.encodeAll cs) (hi : i ≤ s.length) (hfuel : s.length ≤ i + fuel)
    (out : List ℕ) :
    Run.whileLoop (fun p : ℕ × List ℕ => decide (p.1 < s.length)) (nextCodePoint s) fuel (i, out)
      = pure (s.length, out ++ cs) := by
  induction cs generalizing fuel i out with
  | nil =>
    have hend : s.length ≤ i := List.drop_eq_nil_iff.mp hs
    obtain rfl : i = s.length := by omega
    rw [Run.whileLoop_exit (p := fun p : ℕ × List ℕ => p.1 < s.length) (Nat.lt_irrefl _),
      List.append_nil]
  | cons c cs ih =>
    rw [utf8.encodeAll_cons] at hs
    have hpos := utf8.length_encode_pos c
    have hlength := congrArg List.length hs
    rw [List.length_drop, List.length_append] at hlength
    obtain ⟨fuel, rfl⟩ := Nat.exists_eq_add_of_le' (show 1 ≤ fuel by omega)
    have hlt : i < s.length := by omega
    have hread := utf8.read?_encode (hcs c List.mem_cons_self) (utf8.encodeAll cs)
    rw [← hs] at hread
    rw [Run.whileLoop_enter (p := fun p : ℕ × List ℕ => p.1 < s.length) hlt,
      nextCodePoint_of_read? hlt hread, pure_bind, ih (fun d hd => hcs d (List.mem_cons_of_mem c hd))
      _ ?_ (by omega) (by omega), List.append_assoc, List.singleton_append]
    rw [← List.drop_drop, hs, List.drop_left]

theorem utf8ToCodePoints_encodeAll (hcs : ∀ c ∈ cs, Scalar c) :
    utf8ToCodePoints (utf8.encodeAll cs) = pure cs := by
  have hloop := loop_encodeAll (s := utf8.encodeAll cs) hcs (utf8.encodeAll cs).length (i := 0) rfl
    (Nat.zero_le _) (by omega) []
  rw [utf8ToCodePoints, hloop, map_pure]
  rfl

theorem encodeAll_of_utf8ToCodePoints (h : (utf8ToCodePoints s).outcome = .returned cs) :
    (∀ c ∈ cs, Scalar c) ∧ s = utf8.encodeAll cs := by
  obtain ⟨p, hloop, hpure⟩ := Run.outcome_bind_eq_returned h
  cases hpure
  obtain ⟨cs, hcs, hs, hout⟩ := encodeAll_of_loop hloop
  rw [hout]
  exact ⟨hcs, hs⟩

/-! ## Label by label -/

section EachLabel

variable {α : Type} {isSeparator : α → Bool} {convert : List α → Run Exception (List UInt8)}

theorem name_cases (isSeparator : α → Bool) (name : List α) :
    name = [] ∨ (∃ c rest, isSeparator c = true ∧ name = c :: rest) ∨
      (name ≠ [] ∧ ∀ c ∈ name, isSeparator c = false) ∨
      ∃ label c rest, label ≠ [] ∧ (∀ c ∈ label, isSeparator c = false) ∧ isSeparator c = true ∧
        name = label ++ c :: rest := by
  have hname := List.takeWhile_append_dropWhile (p := fun c => !isSeparator c) (l := name)
  have hlabel : ∀ c ∈ name.takeWhile (fun c => !isSeparator c), isSeparator c = false :=
    fun c hc => by simpa using List.mem_takeWhile_imp hc
  have hhead : ∀ c rest, name.dropWhile (fun c => !isSeparator c) = c :: rest →
      isSeparator c = true := by
    intro c rest hdrop
    have hnot := List.head_dropWhile_not (fun c => !isSeparator c) (l := name)
      (by rw [hdrop]; exact List.cons_ne_nil _ _)
    simpa [hdrop] using hnot
  generalize name.dropWhile (fun c => !isSeparator c) = tail at hname hhead
  cases tail with
  | nil => grind
  | cons c rest => grind

variable {fuel : ℕ} {result : List UInt8}

theorem eachLabel_nil : eachLabel isSeparator convert (fuel + 1) [] result = pure result := rfl

variable {c : α} {rest : List α}

theorem eachLabel_separator (hc : isSeparator c = true) :
    eachLabel isSeparator convert (fuel + 1) (c :: rest) result =
      Run.throwing (malformed "empty label.") := by simp [hc, eachLabel]

variable {label : List α}

theorem eachLabel_last (hne : label ≠ []) (hlabel : ∀ c ∈ label, isSeparator c = false) :
    eachLabel isSeparator convert (fuel + 1) label result =
      convert label >>= fun r => pure (result ++ r) := by
  have htake : label.takeWhile (fun c => !isSeparator c) = label :=
    List.takeWhile_eq_self_iff.mpr fun c hc => by rw [hlabel c hc]; rfl
  have hdrop : label.dropWhile (fun c => !isSeparator c) = [] :=
    List.dropWhile_eq_nil_iff.mpr fun c hc => by rw [hlabel c hc]; rfl
  rw [eachLabel, htake, hdrop]
  cases label with
  | nil => exact absurd rfl hne
  | cons c label => rfl

theorem eachLabel_cons (hne : label ≠ [])
    (hlabel : ∀ c ∈ label, isSeparator c = false) (hc : isSeparator c = true) :
    eachLabel isSeparator convert (fuel + 1) (label ++ c :: rest) result =
      convert label >>= fun r =>
        eachLabel isSeparator convert fuel rest (result ++ r ++ [0x2E]) := by
  have hpass : ∀ d ∈ label, (!isSeparator d) = true := fun d hd => by rw [hlabel d hd]; rfl
  have hstop : ¬ (!isSeparator c) = true := by rw [hc]; exact Bool.false_ne_true
  rw [eachLabel, List.takeWhile_append_of_pos hpass, List.dropWhile_append_of_pos hpass,
    List.takeWhile_cons_of_neg (p := fun a => !isSeparator a) hstop,
    List.dropWhile_cons_of_neg (p := fun a => !isSeparator a) hstop, List.append_nil]
  cases label with
  | nil => exact absurd rfl hne
  | cons d label => rfl

variable {name : List α}

theorem relabelled_of_eachLabel {out : List UInt8}
    (h : (eachLabel isSeparator convert fuel name result).outcome = .returned out) :
    ∃ text, out = result ++ text ∧
      Relabelled isSeparator (fun label r => (convert label).outcome = .returned r) name text := by
  induction fuel generalizing name result with
  | zero => cases h
  | succ fuel ih =>
    rcases name_cases isSeparator name with rfl | ⟨c, rest, hc, rfl⟩ | ⟨hne, hlabel⟩ |
      ⟨label, c, rest, hne, hlabel, hc, rfl⟩
    · cases h
      exact ⟨[], (List.append_nil _).symm, nil⟩
    · rw [eachLabel_separator hc] at h
      cases h
    · rw [eachLabel_last hne hlabel] at h
      obtain ⟨r, hr, h⟩ := Run.outcome_bind_eq_returned h
      cases h
      exact ⟨r, rfl, last hne hlabel hr⟩
    · rw [eachLabel_cons hne hlabel hc] at h
      obtain ⟨r, hr, h⟩ := Run.outcome_bind_eq_returned h
      obtain ⟨text, rfl, hrest⟩ := ih h
      refine ⟨r ++ 0x2E :: text, ?_, cons hne hlabel hc hr hrest⟩
      simp only [List.append_assoc, List.singleton_append]

theorem eachLabel_of_relabelled {text : List UInt8}
    (h : Relabelled isSeparator (fun label r => convert label = pure r) name text) {fuel : ℕ}
    (hfuel : name.length < fuel) (result : List UInt8) :
    eachLabel isSeparator convert fuel name result = pure (result ++ text) := by
  obtain ⟨fuel, rfl⟩ := Nat.exists_eq_add_of_lt hfuel
  induction h generalizing fuel result with
  | nil => rw [eachLabel_nil, List.append_nil]
  | @last label r hne hlabel h => rw [eachLabel_last hne hlabel, h, pure_bind]
  | @cons label rest c r rs hne hlabel hc h hrest ih =>
    rw [eachLabel_cons hne hlabel hc, h, pure_bind]
    have hlength : (label ++ c :: rest).length + fuel = rest.length + (label.length + fuel) + 1 := by
      simp
      omega
    rw [hlength, ih _ _ (by omega)]
    simp only [List.append_assoc, List.singleton_append]

end EachLabel

/-! ## One label -/

/-- A byte of a converted label: in ASCII, in lower case, and no dot. -/
def Settled (b : UInt8) : Prop :=
  b.toNat < initialN ∧ asciiLower b.toNat = b.toNat ∧ isSeparator b.toNat = false

instance : DecidablePred Settled := fun _ => inferInstanceAs (Decidable (_ ∧ _ ∧ _))

variable {d : ℕ}

theorem settled_encodeDigit (h : d < 36) : Settled (encodeDigit d) := by
  have hall : ∀ d < 36, Settled (encodeDigit d) := by decide
  exact hall d h

theorem toNat_ofNat_asciiLower (h : c < initialN) :
    (UInt8.ofNat (asciiLower c)).toNat = asciiLower c :=
  UInt8.toNat_ofNat_of_lt' (Nat.lt_trans
    ((asciiLower_lt_iff (Nat.le_refl initialN) c).mpr h) (by decide))

theorem isSeparator_asciiLower (h : isSeparator c = false) :
    isSeparator (asciiLower c) = false := by grind [isSeparator, asciiLower]

theorem settled_asciiLower (h : c < initialN) (hsep : isSeparator c = false) :
    Settled (UInt8.ofNat (asciiLower c)) := by
  unfold Settled
  rw [toNat_ofNat_asciiLower h]
  exact ⟨(asciiLower_lt_iff (Nat.le_refl initialN) c).mpr h, asciiLower_asciiLower c,
    isSeparator_asciiLower hsep⟩

/-! ### The rules of Std3 -/

theorem validateStd3Char_asciiLower (c : ℕ) (boundary : Bool) :
    validateStd3Char (asciiLower c) boundary = validateStd3Char c boundary := by
  unfold asciiLower
  split
  case isTrue h =>
    grind [validateStd3Char]
  case isFalse => rfl

theorem validateStd3Char_cases (c : ℕ) (boundary : Bool) :
    validateStd3Char c boundary = pure () ∨
      ∃ text, validateStd3Char c boundary = Run.throwing (malformed text) := by
  grind [validateStd3Char]

theorem validateStd3Char_inside {boundary : Bool}
    (h : validateStd3Char c boundary = pure ()) : validateStd3Char c false = pure () := by
  grind [validateStd3Char]

theorem forM_of_forall {ε α : Type} {l : List α} {f : α → Run ε PUnit}
    (h : ∀ x ∈ l, f x = pure ()) : l.forM f = pure () := by
  rw [List.forM_eq_forM]
  induction l with
  | nil => rfl
  | cons x l ih =>
    grind

theorem forall_of_forM {ε α : Type} {l : List α} {f : α → Run ε PUnit}
    (hf : ∀ x, f x = pure () ∨ ∃ e, f x = Run.throwing e)
    (h : (l.forM f).outcome = .returned ()) : ∀ x ∈ l, f x = pure () := by
  induction l with
  | nil => nofun
  | cons x l ih =>
    obtain ⟨_, hx, hrest⟩ := Run.outcome_bind_eq_returned h
    intro y hy
    rcases List.mem_cons.mp hy with rfl | hy
    · rcases hf y with hpass | ⟨e, hthrow⟩
      · exact hpass
      · rw [hthrow] at hx
        cases hx
    · exact ih hrest y hy

theorem validateStd3_map (label : List ℕ) :
    validateStd3 (label.map asciiLower) = validateStd3 label := by
  unfold validateStd3
  rw [List.zipIdx_map, List.length_map, List.forM_eq_forM, List.forM_map]
  refine congrArg _ (funext fun p => ?_)
  exact validateStd3Char_asciiLower p.1 _

variable {label : List ℕ}

theorem validateStd3_of_forall (h : ∀ c i, label[i]? = some c →
      validateStd3Char c (i == 0 || i == label.length - 1) = pure ()) :
    validateStd3 label = pure () :=
  forM_of_forall fun p hp => h p.1 p.2 (List.mem_zipIdx_iff_getElem?.mp hp)

variable {m : IdnMapping}

theorem checkStd3_returned (h : (checkStd3 m label).outcome = .returned ()) :
    checkStd3 m label = pure () ∧
      (m.useStd3 = true → ∀ c ∈ label, validateStd3Char c false = pure ()) := by
  unfold checkStd3 at h ⊢
  split at h
  case isTrue hon =>
    have hall := forall_of_forM (fun p : ℕ × ℕ => (validateStd3Char_cases p.1 _).imp_right
      fun ⟨_, htext⟩ => ⟨_, htext⟩) h
    rw [if_pos hon]
    refine ⟨forM_of_forall hall, fun _ c hc => ?_⟩
    obtain ⟨i, hi⟩ := List.getElem?_of_mem hc
    exact validateStd3Char_inside (hall (c, i) (List.mem_zipIdx_iff_getElem?.mpr hi))
  case isFalse hoff =>
    simp [hoff]

/-! ### The two conversions of a label -/

/-- What is known of a label and what `getAscii` makes of it: the bytes are settled, the label in
lower case and the bytes themselves are converted alike, and `getUnicode` makes the label of the
bytes again, in lower case. -/
structure Converts (m : IdnMapping) (label : List ℕ) (r : List UInt8) : Prop where
  ne_nil : r ≠ []
  settled : ∀ b ∈ r, Settled b
  ascii : labelToAscii m label = pure r
  lower : labelToAscii m (label.map asciiLower) = pure r
  again : labelToAscii m (r.map UInt8.toNat) = pure r
  back : ¬ BeginsWithAce label → labelToUnicode r = pure (utf8.encodeAll (label.map asciiLower))

theorem labelToAscii_map (m : IdnMapping) (label : List ℕ) :
    labelToAscii m (label.map asciiLower) = labelToAscii m label := by
  have hall : (label.map asciiLower).all isBasic = label.all isBasic := by
    rw [List.all_map]
    refine congrArg (fun p => label.all p) (funext fun c => ?_)
    exact decide_eq_decide.mpr (asciiLower_lt_iff (Nat.le_refl initialN) c)
  unfold labelToAscii
  rw [List.length_map, checkStd3, validateStd3_map, ← checkStd3, hall, encodeLabel_map, List.map_map]
  simp only [Function.comp_def, asciiLower_asciiLower]

variable {r : List UInt8}

theorem beginsWithAce_of_isPunycode (h : isPunycode r = true) :
    BeginsWithAce (r.map UInt8.toNat) := by
  unfold isPunycode at h
  split at h
  case h_1 x n d d' rest =>
    simp only [Bool.and_eq_true, Bool.or_eq_true, beq_iff_eq] at h
    obtain ⟨⟨⟨hx, hn⟩, rfl⟩, rfl⟩ := h
    rcases hx with rfl | rfl
    · rcases hn with rfl | rfl
      · rfl
      · rfl
    · rcases hn with rfl | rfl
      · rfl
      · rfl
  case h_2 => cases h

theorem beginsWithAce_map (h : BeginsWithAce (label.map asciiLower)) : BeginsWithAce label := by
  unfold BeginsWithAce at h
  rw [← List.map_take, List.map_map, Function.comp_def] at h
  simp only [asciiLower_asciiLower] at h
  exact h

theorem encodeAll_ascii (h : ∀ c ∈ cs, c < initialN) : utf8.encodeAll cs = cs.map UInt8.ofNat := by
  induction cs with
  | nil => rfl
  | cons c cs ih =>
    have hone : utf8.encode c = [UInt8.ofNat c] := encode_one (h c List.mem_cons_self)
    simp [utf8.encodeAll_cons, hone, ih (fun d hd => h d (List.mem_cons_of_mem c hd))]

theorem converts_ascii (hne : label ≠ [])
    (hlength : label.length ≤ labelMax) (hsep : ∀ c ∈ label, isSeparator c = false)
    (hstd3 : checkStd3 m label = pure ())
    (hascii : ∀ c ∈ label, c < initialN) :
    Converts m label (label.map fun c => UInt8.ofNat (asciiLower c)) := by
  have hall : label.all isBasic = true :=
    List.all_eq_true.mpr fun c hc => decide_eq_true (hascii c hc)
  have hbytes : (label.map fun c => UInt8.ofNat (asciiLower c)).map UInt8.toNat
      = label.map asciiLower := by
    rw [List.map_map]
    exact List.map_congr_left fun c hc => toNat_ofNat_asciiLower (hascii c hc)
  have hconvert : labelToAscii m label = pure (label.map fun c => UInt8.ofNat (asciiLower c)) := by
    grind [labelToAscii]
  have hlower := (labelToAscii_map m label).trans hconvert
  refine ⟨?_, ?_, hconvert, hlower, hbytes ▸ hlower, ?_⟩
  · exact fun hnil => hne (List.map_eq_nil_iff.mp hnil)
  · grind [settled_asciiLower]
  · intro hace
    have hplain : isPunycode (label.map fun c => UInt8.ofNat (asciiLower c)) = false := by
      rw [Bool.eq_false_iff]
      intro hpunycode
      have hbegins := beginsWithAce_of_isPunycode hpunycode
      rw [hbytes] at hbegins
      exact hace (beginsWithAce_map hbegins)
    have hencode : utf8.encodeAll (label.map asciiLower)
        = label.map fun c => UInt8.ofNat (asciiLower c) := by
      rw [encodeAll_ascii, List.map_map]
      · rfl
      · intro c hc
        obtain ⟨d, hd, rfl⟩ := List.mem_map.mp hc
        exact (asciiLower_lt_iff (Nat.le_refl initialN) d).mpr (hascii d hd)
    have hlen : ¬ labelMax < (label.map fun c => UInt8.ofNat (asciiLower c)).length := by grind
    rw [labelToUnicode, if_neg hlen, hplain, hencode]
    rfl

/-- A coded label, with its prefix.
SOURCE: IdnMapping.cpp:292-293 -/
def coded (label w : List ℕ) : List UInt8 :=
  [0x78, 0x6E, 0x2D, 0x2D] ++ (basicPart label ++ w.map encodeDigit)

variable {w : List ℕ}

theorem mem_coded {b : UInt8} (h : b ∈ coded label w) : b = 0x78 ∨ b = 0x6E ∨ b = 0x2D ∨
      (∃ c ∈ label, c < initialN ∧ b = UInt8.ofNat (asciiLower c)) ∨
      ∃ d ∈ w, b = encodeDigit d := by
  rcases List.mem_append.mp h with hprefix | hrest
  · grind
  · rcases List.mem_append.mp hrest with hbasic | hdigit
    · have hmem : b = 0x2D ∨ b ∈ (below initialN label).map fun c => UInt8.ofNat (asciiLower c) := by
        grind [basicPart]
      rcases hmem with rfl | hmem
      · exact Or.inr (Or.inr (Or.inl rfl))
      · obtain ⟨c, hc, rfl⟩ := List.mem_map.mp hmem
        obtain ⟨hc, hlow⟩ := List.mem_filter.mp hc
        exact Or.inr (Or.inr (Or.inr (Or.inl ⟨c, hc, of_decide_eq_true hlow, rfl⟩)))
    · grind

theorem settled_coded (hsep : ∀ c ∈ label, isSeparator c = false)
    (hw : ∀ d ∈ w, d < 36) : ∀ b ∈ coded label w, Settled b := by
  intro b hb
  rcases mem_coded hb with rfl | rfl | rfl | ⟨c, hc, hlow, rfl⟩ | ⟨d, hd, rfl⟩
  · decide
  · decide
  · decide
  · exact settled_asciiLower hlow (hsep c hc)
  · exact settled_encodeDigit (hw d hd)

theorem validateStd3Char_digit (h : d < 36) (boundary : Bool) :
    validateStd3Char (encodeDigit d).toNat boundary = pure () := by
  have hall : ∀ d < 36, ∀ boundary, validateStd3Char (encodeDigit d).toNat boundary = pure () := by
    decide
  exact hall d h boundary

/-- A coded label keeps the rules of Std3: it begins with a letter and ends with a digit, and inside
it are the characters of the label. -/
theorem checkStd3_coded (hne : w ≠ []) (hw : ∀ d ∈ w, d < 36)
    (hlabel : m.useStd3 = true → ∀ c ∈ label, validateStd3Char c false = pure ()) :
    checkStd3 m ((coded label w).map UInt8.toNat) = pure () := by
  unfold checkStd3
  split
  case isTrue hon =>
    refine validateStd3_of_forall fun c i hi => ?_
    rw [List.getElem?_map, Option.map_eq_some_iff] at hi
    obtain ⟨b, hb, rfl⟩ := hi
    rw [List.length_map]
    by_cases hfirst : i = 0
    · rw [hfirst] at hb
      cases hb
      exact rfl
    · by_cases hlast : i = (coded label w).length - 1
      · have hw' : w.map encodeDigit ≠ [] := fun hnil => hne (List.map_eq_nil_iff.mp hnil)
        rw [hlast, ← List.getLast?_eq_getElem?, coded, ← List.append_assoc,
          List.getLast?_append_of_ne_nil _ hw', List.getLast?_map] at hb
        obtain ⟨d, hd, rfl⟩ := Option.map_eq_some_iff.mp hb
        exact validateStd3Char_digit (hw d (List.mem_of_getLast? hd)) _
      · rw [beq_eq_false_iff_ne.mpr hfirst, beq_eq_false_iff_ne.mpr hlast]
        rcases mem_coded (List.mem_of_getElem? hb) with rfl | rfl | rfl | ⟨c, hc, hlow, rfl⟩ |
          ⟨d, hd, rfl⟩
        · rfl
        · rfl
        · rfl
        · rw [toNat_ofNat_asciiLower hlow, validateStd3Char_asciiLower]
          exact hlabel hon c hc
        · exact validateStd3Char_digit (hw d hd) _
  case isFalse => rfl

theorem converts_coded (hscalar : ∀ c ∈ label, Scalar c)
    (hlength : label.length ≤ labelMax) (hsep : ∀ c ∈ label, isSeparator c = false)
    (hstd3 : checkStd3 m label = pure ())
    (hlabel : m.useStd3 = true → ∀ c ∈ label, validateStd3Char c false = pure ())
    (hsome : ∃ c ∈ label, initialN ≤ c) (hne : w ≠ []) (hw : ∀ d ∈ w, d < 36)
    (hencode : encodeLabel label = pure (basicPart label ++ w.map encodeDigit))
    (hfits : (coded label w).length ≤ labelMax) : Converts m label (coded label w) := by
  have hmixed : ¬ label.all isBasic = true := by
    intro hall
    obtain ⟨c, hc, hle⟩ := hsome
    exact absurd (of_decide_eq_true (List.all_eq_true.mp hall c hc)) (Nat.not_lt.mpr hle)
  have hsettled := settled_coded hsep hw
  have hconvert : labelToAscii m label = pure (coded label w) := by
    unfold labelToAscii
    rw [if_neg (Nat.not_lt.mpr hlength), hstd3, pure_bind, if_neg hmixed, hencode, pure_bind]
    exact if_neg (Nat.not_lt.mpr hfits)
  refine ⟨List.cons_ne_nil _ _, hsettled, hconvert, (labelToAscii_map m label).trans hconvert,
    ?_, ?_⟩
  · have hall : ((coded label w).map UInt8.toNat).all isBasic = true := by
      rw [List.all_map, List.all_eq_true]
      exact fun b hb => decide_eq_true (hsettled b hb).1
    have hsame : ((coded label w).map UInt8.toNat).map (fun c => UInt8.ofNat (asciiLower c))
        = coded label w := by
      rw [List.map_map]
      refine (List.map_congr_left fun b hb => ?_).trans (List.map_id _)
      simp [(hsettled b hb).2.1]
    unfold labelToAscii
    rw [List.length_map, if_neg (Nat.not_lt.mpr hfits), checkStd3_coded hne hw hlabel, pure_bind,
      if_pos hall, hsame]
  · intro _
    have hback := decodeLabel_encodeLabel hscalar hlength hsome
    rw [hencode, pure_bind] at hback
    have hdecode : decodeLabel ((coded label w).drop 4) = pure (label.map asciiLower) := hback
    have htext := foldl_appendUtf8Scalar (scalar_map_asciiLower hscalar) []
    have hace : isPunycode (coded label w) = true := rfl
    grind [labelToUnicode, codePointsToUtf8]

/-- **A label that is converted converts back.** -/
theorem converts_of_returned (hne : label ≠ [])
    (hscalar : ∀ c ∈ label, Scalar c) (hsep : ∀ c ∈ label, isSeparator c = false)
    (h : (labelToAscii m label).outcome = .returned r) : Converts m label r := by
  unfold labelToAscii at h
  split at h
  case isTrue => cases h
  case isFalse hlong =>
    have hlength := Nat.not_lt.mp hlong
    obtain ⟨_, hchecked, h⟩ := Run.outcome_bind_eq_returned h
    obtain ⟨hstd3, hlabel⟩ := checkStd3_returned hchecked
    split at h
    case isTrue hall =>
      cases h
      exact converts_ascii hne hlength hsep hstd3
        fun c hc => of_decide_eq_true (List.all_eq_true.mp hall c hc)
    case isFalse hmixed =>
      have hsome : ∃ c ∈ label, initialN ≤ c := by
        by_contra hnone
        push Not at hnone
        exact hmixed (List.all_eq_true.mpr fun c hc => decide_eq_true (hnone c hc))
      obtain ⟨ds, s, hencode, -, -, hds⟩ := encodeLabel_eq hscalar hlength hsome
      have hw := word_ne_nil (below initialN label).length initialBias
        (below initialN label).length hds
      have hdigits : ∀ d ∈ punycode.word (below initialN label).length initialBias
        (below initialN label).length ds, d < 36 := word_lt _ _ _
      generalize punycode.word _ _ _ ds = w at hencode hw hdigits
      rw [hencode, pure_bind] at h
      have hfinal : (if labelMax < (coded label w).length then
          Run.throwing (malformed "encoded label exceeds 63 characters.")
        else pure (coded label w)).outcome = .returned r := h
      split at hfinal
      case isTrue => cases hfinal
      case isFalse hfits =>
        cases hfinal
        exact converts_coded hscalar hlength hsep hstd3 hlabel hsome hw hdigits hencode
          (Nat.not_lt.mp hfits)

/-! ## Names -/

section Name

variable {m : IdnMapping} {cs : List ℕ} {r : List UInt8}

theorem map_normalized {label : List ℕ} (h : ∀ c ∈ label, isSeparator c = false) :
    label.map normalized = label.map asciiLower :=
  List.map_congr_left fun c hc => by rw [normalized, h c hc]; rfl

theorem isSeparator_settled {r : List UInt8} (h : ∀ b ∈ r, Settled b) :
    ∀ b ∈ r, (b == 0x2E) = false := by
  intro b hb
  rw [beq_eq_false_iff_ne]
  rintro rfl
  exact absurd (h _ hb).2.2 (by decide)

theorem settled_relabelled (h : Relabelled isSeparator (Converts m) cs r) :
    ∀ b ∈ r, b.toNat < initialN := by
  induction h with
  | nil => nofun
  | last _ _ h => exact fun b hb => (h.settled b hb).1
  | cons _ _ _ h _ ih =>
    intro b hb
    rcases List.mem_append.mp hb with hb | hb
    · exact (h.settled b hb).1
    · rcases List.mem_cons.mp hb with rfl | hb
      · decide
      · exact ih b hb

theorem relabelled_ne_nil (h : Relabelled isSeparator (Converts m) cs r) (hne : cs ≠ []) :
    r ≠ [] := by
  cases h with
  | nil => exact absurd rfl hne
  | last _ _ h => exact h.ne_nil
  | cons _ _ _ h _ => exact List.append_ne_nil_of_left_ne_nil h.ne_nil _

theorem relabelled_normalized (h : Relabelled isSeparator (Converts m) cs r) :
    Relabelled isSeparator (fun label r => labelToAscii m label = pure r) (cs.map normalized) r := by
  induction h with
  | nil => exact nil
  | last hne hlabel h =>
    rw [map_normalized hlabel]
    refine last (fun hnil => hne (List.map_eq_nil_iff.mp hnil)) ?_ h.lower
    intro c hc
    obtain ⟨d, hd, rfl⟩ := List.mem_map.mp hc
    exact isSeparator_asciiLower (hlabel d hd)
  | @cons label rest c r rs hne hlabel hc h _ ih =>
    have hdot : normalized c = 0x2E := by rw [normalized, if_pos hc]
    rw [List.map_append, List.map_cons, map_normalized hlabel, hdot]
    refine cons (fun hnil => hne (List.map_eq_nil_iff.mp hnil)) ?_ rfl h.lower ih
    intro d hd
    obtain ⟨e, he, rfl⟩ := List.mem_map.mp hd
    exact isSeparator_asciiLower (hlabel e he)

theorem relabelled_again (h : Relabelled isSeparator (Converts m) cs r) :
    Relabelled isSeparator (fun label r => labelToAscii m label = pure r) (r.map UInt8.toNat) r := by
  induction h with
  | nil => exact nil
  | last _ _ h =>
    refine last (fun hnil => h.ne_nil (List.map_eq_nil_iff.mp hnil)) ?_ h.again
    intro c hc
    obtain ⟨b, hb, rfl⟩ := List.mem_map.mp hc
    exact (h.settled b hb).2.2
  | cons _ _ _ h _ ih =>
    rw [List.map_append, List.map_cons]
    refine cons (fun hnil => h.ne_nil (List.map_eq_nil_iff.mp hnil)) ?_ rfl h.again ih
    intro c hc
    obtain ⟨b, hb, rfl⟩ := List.mem_map.mp hc
    exact (h.settled b hb).2.2

theorem relabelled_back (h : Relabelled isSeparator (Converts m) cs r)
    (hace : ∀ label ∈ labels cs, ¬ BeginsWithAce label) :
    Relabelled (· == 0x2E) (fun label text => labelToUnicode label = pure text) r
      (utf8.encodeAll (cs.map normalized)) := by
  induction h with
  | nil => exact nil
  | @last label r _ hlabel h =>
    have hmem : label ∈ labels label := by simp [labels, List.splitOnP_eq_singleton hlabel]
    rw [map_normalized hlabel]
    exact last h.ne_nil (isSeparator_settled h.settled) (h.back (hace label hmem))
  | @cons label rest c r rs _ hlabel hc h _ ih =>
    have hsplit : labels (label ++ c :: rest) = label :: labels rest :=
      List.splitOnP_append_cons_of_forall_mem hlabel c hc rest
    rw [hsplit] at hace
    have hdot : normalized c = 0x2E := by rw [normalized, if_pos hc]
    rw [List.map_append, List.map_cons, map_normalized hlabel, hdot, utf8.encodeAll_append,
      utf8.encodeAll_cons]
    exact cons h.ne_nil (isSeparator_settled h.settled) rfl
      (h.back (hace label List.mem_cons_self))
      (ih fun label' hlabel' => hace label' (List.mem_cons_of_mem _ hlabel'))

end Name

section Mapping

variable (lookupUnicodeCategory : ℕ → ℕ) {m : IdnMapping}

variable {r : List UInt8}

theorem getAscii_returned {name : List UInt8}
    (h : (getAscii lookupUnicodeCategory m name).outcome = .returned r) :
    ∃ cs, cs ≠ [] ∧ (∀ c ∈ cs, Scalar c) ∧ name = utf8.encodeAll cs ∧
      (m.allowUnassigned = false → ∀ c ∈ cs, lookupUnicodeCategory c ≠ otherNotAssigned) ∧
      Relabelled isSeparator (Converts m) cs r ∧ r.length ≤ nameMax := by
  unfold getAscii at h
  split at h
  case isTrue => cases h
  case isFalse hne =>
    obtain ⟨cs, hcs, hrest⟩ := Run.outcome_bind_eq_returned h
    obtain ⟨hscalar, rfl⟩ := encodeAll_of_utf8ToCodePoints hcs
    split at hrest
    case isTrue => cases hrest
    case isFalse hassigned =>
      obtain ⟨text, htext, hlast⟩ := Run.outcome_bind_eq_returned hrest
      split at hlast
      case isTrue => cases hlast
      case isFalse hfits =>
        cases hlast
        obtain ⟨text, rfl, hrelabelled⟩ := relabelled_of_eachLabel htext
        refine ⟨cs, ?_, hscalar, rfl, ?_, ?_, Nat.not_lt.mp hfits⟩
        · rintro rfl
          exact hne rfl
        · intro hallow c hc hcategory
          refine hassigned ?_
          grind
        · exact hrelabelled.mono fun label r hne hmem hlabel h =>
            converts_of_returned hne (fun c hc => hscalar c (hmem c hc)) hlabel h

theorem getAscii_eq {cs : List ℕ} (hne : cs ≠ []) (hscalar : ∀ c ∈ cs, Scalar c)
    (hassigned : m.allowUnassigned = false → ∀ c ∈ cs, lookupUnicodeCategory c ≠ otherNotAssigned)
    (h : Relabelled isSeparator (fun label r => labelToAscii m label = pure r) cs r)
    (hfits : r.length ≤ nameMax) :
    getAscii lookupUnicodeCategory m (utf8.encodeAll cs) = pure r := by
  have hname : utf8.encodeAll cs ≠ [] := by
    intro hnil
    exact hne (utf8.encodeAll_inj hscalar (fun _ hd => nomatch hd) hnil)
  have hcheck : ¬ (!m.allowUnassigned && cs.any (lookupUnicodeCategory · == otherNotAssigned))
      = true := by grind
  unfold getAscii
  rw [if_neg hname, utf8ToCodePoints_encodeAll hscalar, pure_bind, if_neg hcheck,
    eachLabel_of_relabelled h (Nat.lt_succ_self _), pure_bind, List.nil_append]
  exact if_neg (Nat.not_lt.mpr hfits)

theorem equalsIgnoreCaseAscii_self (a : List UInt8) : equalsIgnoreCaseAscii a a = true :=
  beq_self_eq_true _

theorem getUnicode_eq {ascii text : List UInt8} (hne : ascii ≠ [])
    (h : Relabelled (· == 0x2E) (fun label text => labelToUnicode label = pure text) ascii text)
    (hagain : getAscii lookupUnicodeCategory m text = pure ascii) :
    getUnicode lookupUnicodeCategory m ascii = pure text := by
  unfold getUnicode
  rw [if_neg hne, eachLabel_of_relabelled h (Nat.lt_succ_self _), pure_bind, List.nil_append,
    hagain, pure_bind, if_pos (equalsIgnoreCaseAscii_self ascii)]

end Mapping

/-- **Labels and names come back**: a label with a code point outside ASCII is decoded as itself in
lower case; a name that is converted and has no coded label of its own is converted back to the
name in lower case, with a dot for every dot; and a converted name is converted to itself. -/
theorem idn_round_trip (lookupUnicodeCategory : ℕ → ℕ)
    (hassigned : ∀ c < 0x80, lookupUnicodeCategory c ≠ otherNotAssigned) :
    (∀ label : List ℕ, label ≠ [] → label.length ≤ 63 → (∀ c ∈ label, Scalar c) →
      (∃ c ∈ label, 0x80 ≤ c) → (encodeLabel label >>= decodeLabel) = pure (label.map asciiLower)) ∧
    ∀ (m : IdnMapping) (name r : List UInt8),
      (getAscii lookupUnicodeCategory m name).outcome = .returned r →
      ∃ cs, (∀ c ∈ cs, Scalar c) ∧ name = utf8.encodeAll cs ∧
        ((∀ label ∈ labels cs, ¬ BeginsWithAce label) →
          getUnicode lookupUnicodeCategory m r = pure (utf8.encodeAll (cs.map normalized))) ∧
        getAscii lookupUnicodeCategory m name = pure r ∧
        getAscii lookupUnicodeCategory m r = pure r := by
  refine ⟨fun label _ hlength hscalar hsome => decodeLabel_encodeLabel hscalar hlength hsome, ?_⟩
  intro m name r h
  obtain ⟨cs, hne, hscalar, rfl, hknown, hname, hfits⟩ := getAscii_returned lookupUnicodeCategory h
  have hascii := settled_relabelled hname
  have hr := relabelled_ne_nil hname hne
  refine ⟨cs, hscalar, rfl, ?_, ?_, ?_⟩
  · intro hace
    refine getUnicode_eq lookupUnicodeCategory hr (relabelled_back hname hace) ?_
    refine getAscii_eq lookupUnicodeCategory (fun hnil => hne (List.map_eq_nil_iff.mp hnil)) ?_ ?_
      (relabelled_normalized hname) hfits
    · intro c hc
      obtain ⟨d, hd, rfl⟩ := List.mem_map.mp hc
      unfold normalized
      split
      case isTrue => exact Or.inl (by decide)
      case isFalse => exact scalar_asciiLower (hscalar d hd)
    · intro hallow c hc
      obtain ⟨d, hd, rfl⟩ := List.mem_map.mp hc
      unfold normalized
      split
      case isTrue => exact hassigned 0x2E (by decide)
      case isFalse =>
        by_cases hlow : d < initialN
        · exact hassigned _ ((asciiLower_lt_iff (Nat.le_refl initialN) d).mpr hlow)
        · rw [asciiLower_of_le (Nat.not_lt.mp hlow)]
          exact hknown hallow d hd
  · exact getAscii_eq lookupUnicodeCategory hne hscalar hknown (hname.mono fun _ _ _ _ _ h => h.ascii) hfits
  · have hlow : ∀ c ∈ r.map UInt8.toNat, c < initialN := by grind
    have htext : utf8.encodeAll (r.map UInt8.toNat) = r := by
      rw [encodeAll_ascii hlow, List.map_map]
      exact (List.map_congr_left fun b _ => UInt8.ofNat_toNat).trans (List.map_id _)
    have hagain := getAscii_eq lookupUnicodeCategory (m := m)
      (fun hnil => hr (List.map_eq_nil_iff.mp hnil))
      (fun c hc => Or.inl (Nat.lt_trans (hlow c hc) (by decide)))
      (fun _ c hc => hassigned c (hlow c hc)) (relabelled_again hname) hfits
    rw [htext] at hagain
    exact hagain

/-- The categories of the characters of `bü。Ex` and `xn--b-eha.ex`. -/
def categoryOf (c : ℕ) : ℕ :=
  if c = 0x3002 ∨ c = 0x2E then 24 else if c = 0x2D then 19 else if c = 0x45 then 0 else 1

/-- The name `bü。Ex` under the rules of Std3. -/
theorem idn_round_trip_buex :
    ∃ cs, (∀ c ∈ cs, Scalar c) ∧
      [0x62, 0xC3, 0xBC, 0xE3, 0x80, 0x82, 0x45, 0x78] = utf8.encodeAll cs ∧
      ((∀ label ∈ labels cs, ¬ BeginsWithAce label) →
        getUnicode categoryOf ⟨false, true⟩
          [0x78, 0x6E, 0x2D, 0x2D, 0x62, 0x2D, 0x65, 0x68, 0x61, 0x2E, 0x65, 0x78]
          = pure (utf8.encodeAll (cs.map normalized))) ∧
      getAscii categoryOf ⟨false, true⟩ [0x62, 0xC3, 0xBC, 0xE3, 0x80, 0x82, 0x45, 0x78]
        = pure [0x78, 0x6E, 0x2D, 0x2D, 0x62, 0x2D, 0x65, 0x68, 0x61, 0x2E, 0x65, 0x78] ∧
      getAscii categoryOf ⟨false, true⟩
          [0x78, 0x6E, 0x2D, 0x2D, 0x62, 0x2D, 0x65, 0x68, 0x61, 0x2E, 0x65, 0x78]
        = pure [0x78, 0x6E, 0x2D, 0x2D, 0x62, 0x2D, 0x65, 0x68, 0x61, 0x2E, 0x65, 0x78] :=
  (idn_round_trip categoryOf (by decide)).2 ⟨false, true⟩ _ _ (by decide +kernel)

end SharpRuntime.Analysis.IdnNames
