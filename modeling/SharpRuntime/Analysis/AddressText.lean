import SharpRuntime.Analysis.AddressParts

/-!
# The text of addresses

Every text of an address is read back: the groups on either side of `::` are found again, with the
zeros between them (`scanGroups_text`).  No position is ever outside of a text (`tryParse_ok`).
-/

set_option autoImplicit false
set_option maxRecDepth 20000

namespace SharpRuntime.Analysis.AddressText

open Machine Model Model.IPAddress Interface.AddressForm
open AddressParts AddressGroups
open Printed

/-! ## Positions -/

variable {s : List UInt8} {pos : ℕ}

theorem substr_ok (h : pos ≤ s.length) (count : ℕ) :
    substr s pos count = .ok ((s.drop pos).take count) := if_neg (by omega)

theorem substrFrom_ok (h : pos ≤ s.length) : substrFrom s pos = .ok (s.drop pos) := by
  rw [substrFrom, substr_ok h, List.take_of_length_le (by rw [List.length_drop]; omega)]

variable {c : UInt8} {start : ℕ}

theorem find_eq_none : find s c start = none ↔ c ∉ s.drop start := by
  simp only [find, Option.map_eq_none_iff, List.findIdx?_eq_none_iff, beq_eq_false_iff_ne]
  constructor
  · intro h hc
    exact h c hc rfl
  · rintro h x hx rfl
    exact h hx

theorem find_eq_some (h : find s c start = some pos) :
    start ≤ pos ∧ pos < s.length ∧ c ∉ (s.drop start).take (pos - start) ∧
      s.drop start = (s.drop start).take (pos - start) ++ c :: s.drop (pos + 1) := by
  obtain ⟨hle, hlt⟩ := lt_of_find h
  obtain ⟨i, hi, rfl⟩ := Option.map_eq_some_iff.mp h
  obtain ⟨hi', hget, hbefore⟩ := List.findIdx?_eq_some_iff_getElem.mp hi
  rw [beq_iff_eq, List.getElem_drop] at hget
  refine ⟨hle, hlt, ?_, ?_⟩
  · intro hmem
    rw [Nat.add_sub_cancel_left] at hmem
    obtain ⟨j, hj, hjc⟩ := List.mem_iff_getElem.mp hmem
    rw [List.length_take] at hj
    rw [List.getElem_take] at hjc
    have hne := hbefore j (by omega)
    rw [hjc] at hne
    simp at hne
  · rw [Nat.add_sub_cancel_left]
    conv_lhs => rw [← List.take_append_drop i (s.drop start)]
    rw [List.drop_drop, List.drop_eq_getElem_cons hlt, hget]

variable {body : List UInt8}

theorem find_append (h : c ∉ body) (rest : List UInt8) :
    find (body ++ c :: rest) c 0 = some body.length := by
  cases hfind : find (body ++ c :: rest) c 0 with
  | none => grind [find_eq_none]
  | some pos =>
    obtain ⟨i, hi, rfl⟩ := Option.map_eq_some_iff.mp hfind
    rw [List.drop_zero] at hi
    rw [Nat.zero_add, Option.some.injEq]
    apply le_antisymm
    · grind
    · by_contra hless
      grind

theorem splitFrom_eq {sep : UInt8} (h : start ≤ s.length) :
    splitFrom s sep start = .ok ((s.drop start).splitOn sep) := by
  induction hk : s.length - start using Nat.strong_induction_on generalizing start with
  | _ k ih =>
    rw [splitFrom]
    split
    · rename_i hnone
      rw [substrFrom_ok h, List.splitOn_eq_singleton (find_eq_none.mp hnone)]
      rfl
    · rename_i pos hsome
      obtain ⟨hle, hlt, hnot, hsplit⟩ := find_eq_some hsome
      have hparts : (s.drop start).splitOn sep =
          (s.drop start).take (pos - start) :: (s.drop (pos + 1)).splitOn sep := by
        conv_lhs => rw [hsplit]
        exact List.splitOn_append_cons_self_of_not_mem hnot _
      rw [substr_ok h, ih _ (by omega) hlt rfl, hparts]
      rfl

theorem splitOn_eq (s : List UInt8) (sep : UInt8) : splitOn s sep = .ok (s.splitOn sep) :=
  splitFrom_eq (Nat.zero_le _)

theorem findDouble_lt (h : findDouble s = some pos) : pos + 2 ≤ s.length := by
  induction s generalizing pos with
  | nil => cases h
  | cons a s ih =>
    cases s with
    | nil => cases h
    | cons b s =>
      rw [findDouble] at h
      split at h
      · cases h
        simp
      · obtain ⟨n, hn, rfl⟩ := Option.map_eq_some_iff.mp h
        grind

/-! ## No exception -/

theorem takeScope_ok (input : List UInt8) : ∃ r, takeScope input = .ok r := by
  unfold takeScope
  cases hfind : find input '%'.toUInt8 0 with
  | none => exact ⟨_, rfl⟩
  | some pctPos =>
    obtain ⟨-, hlt⟩ := lt_of_find hfind
    simp only [substrFrom_ok (show pctPos + 1 ≤ input.length from hlt),
      substr_ok (Nat.zero_le input.length)]
    simp only [Except.bind, bind, pure, Except.pure]
    split
    · exact ⟨_, rfl⟩
    · split <;> exact ⟨_, rfl⟩

def side (s : List UInt8) : Option (List UInt16) :=
  if s.isEmpty then some [] else expandGroups (s.splitOn ':'.toUInt8)

theorem sideGroups_eq (s : List UInt8) : sideGroups s = .ok (side s) := by
  unfold sideGroups side
  split
  · rfl
  · rw [splitOn_eq]
    rfl

theorem scanGroups_of_none (h : findDouble s = none) :
    scanGroups s = .ok ((expandGroups (s.splitOn ':'.toUInt8)).bind fun allGroups =>
      if allGroups.length ≠ 8 then none else some allGroups) := by
  simp only [scanGroups, h, splitOn_eq]
  simp only [bind, Except.bind]
  cases expandGroups (s.splitOn ':'.toUInt8) with
  | none => rfl
  | some allGroups =>
    simp only [Option.bind_some]
    split <;> rfl

theorem scanGroups_of_some {dcPos : ℕ} (h : findDouble s = some dcPos) :
    scanGroups s = .ok (if (findDouble (s.drop (dcPos + 1))).isSome then none
      else (side (s.take dcPos)).bind fun leftGroups =>
        (side (s.drop (dcPos + 2))).bind fun rightGroups =>
          if 7 < leftGroups.length + rightGroups.length then none
          else some (leftGroups ++
            List.replicate (8 - (leftGroups.length + rightGroups.length)) 0 ++ rightGroups)) := by
  have hle := findDouble_lt h
  simp only [scanGroups, h]
  split
  · rfl
  · rw [substr_ok (Nat.zero_le s.length), substrFrom_ok hle, List.drop_zero]
    simp only [sideGroups_eq, bind, Except.bind]
    cases side (s.take dcPos) with
    | none => rfl
    | some leftGroups =>
      cases side (s.drop (dcPos + 2)) with
      | none => rfl
      | some rightGroups =>
        simp only [Option.bind_some]
        split <;> rfl

theorem scanGroups_ok (s : List UInt8) : ∃ r, scanGroups s = .ok r := by
  cases h : findDouble s with
  | none => exact ⟨_, scanGroups_of_none h⟩
  | some dcPos => exact ⟨_, scanGroups_of_some h⟩

theorem tryParseIPv6_ok (input : List UInt8) : ∃ r, tryParseIPv6 input = .ok r := by
  obtain ⟨scope, hscope⟩ := takeScope_ok input
  simp only [tryParseIPv6, hscope, bind, Except.bind]
  cases scope with
  | none => exact ⟨_, rfl⟩
  | some scope =>
    obtain ⟨groups, hgroups⟩ := scanGroups_ok scope.2
    simp only [hgroups]
    split
    · exact ⟨_, rfl⟩
    · cases groups with
      | none => exact ⟨_, rfl⟩
      | some groups =>
        dsimp only
        split <;> exact ⟨_, rfl⟩

/-- **No position is outside of a text.** -/
theorem tryParse_ok (s : List UInt8) : ∃ r, tryParse s = .ok r := by
  unfold tryParse
  split
  · obtain ⟨r, hr⟩ := tryParseIPv6_ok s
    simp only [hr, bind, Except.bind]
    cases r <;> exact ⟨_, rfl⟩
  · split <;> exact ⟨_, rfl⟩

/-! ## Digits -/

variable {d : ℕ}

theorem digitByte_spec (h : d < 16) :
    digit? (digitByte d) = some d ∧ digitByte d ≠ ':'.toUInt8 ∧ digitByte d ≠ '.'.toUInt8 ∧
      digitByte d ≠ '%'.toUInt8 ∧ (d < 10 → isdigit (digitByte d) = true ∧
        (digitByte d - '0'.toUInt8).toNat = d) ∧ (d ≠ 0 → digitByte d ≠ '0'.toUInt8) := by
  have hall : ∀ d : Fin 16, digit? (digitByte d) = some d.val ∧ digitByte d ≠ ':'.toUInt8 ∧
      digitByte d ≠ '.'.toUInt8 ∧ digitByte d ≠ '%'.toUInt8 ∧
      (d.val < 10 → isdigit (digitByte d) = true ∧ (digitByte d - '0'.toUInt8).toNat = d.val) ∧
      (d.val ≠ 0 → digitByte d ≠ '0'.toUInt8) := by decide
  exact hall ⟨d, h⟩

def Plain (s : List UInt8) : Prop := ∀ c ∈ s, c ≠ ':'.toUInt8 ∧ c ≠ '.'.toUInt8 ∧ c ≠ '%'.toUInt8

variable {ds : List ℕ}

theorem plain_digits (h : ∀ d ∈ ds, d < 16) : Plain (ds.map digitByte) := by
  intro c hc
  obtain ⟨d, hd, rfl⟩ := List.mem_map.mp hc
  obtain ⟨-, hcolon, hdot, hpercent, -⟩ := digitByte_spec (h d hd)
  exact ⟨hcolon, hdot, hpercent⟩

variable (n : ℕ)

theorem plain_lowerHex : Plain (lowerHex n) :=
  plain_digits fun _ hd => lt_of_mem_numeral (by decide) hd

theorem plain_decimal : Plain (decimal n) :=
  plain_digits fun _ hd => lt_trans (lt_of_mem_numeral (by decide) hd) (by decide)

variable {b : ℕ}

theorem map_digits_ne_nil {n : ℕ} : (numeral b n).map digitByte ≠ [] := by
  rw [ne_eq, List.map_eq_nil_iff]
  exact List.ne_nil_of_length_pos (numeral_length_pos b n)

theorem digits_map {base : ℕ} (hbase : base ≤ 16) (h : ∀ d ∈ ds, d < base) :
    Digits base (ds.map digitByte) ds where
  digits := by
    rw [List.map_map]
    exact List.map_congr_left fun d hd => (digitByte_spec (lt_of_lt_of_le (h d hd) hbase)).1
  lt := h

theorem partText_decimal : PartText (decimal n) n := by
  by_cases hzero : n = 0
  · subst hzero
    exact .octal (digits_nil 8)
  · have hdigits : ∀ d ∈ numeral 10 n, d < 10 :=
      fun d hd => lt_of_mem_numeral (by decide) hd
    have hpart : PartText (decimal n) (value 10 (numeral 10 n)) := by
      refine .decimal (digits_map (by decide) hdigits) map_digits_ne_nil ?_
      have hnumeral : numeral 10 n = (Nat.digits 10 n).reverse := if_neg hzero
      rw [decimal, hnumeral, List.head?_map, List.head?_reverse]
      intro hhead
      obtain ⟨d, hd, hbyte⟩ := Option.map_eq_some_iff.mp hhead
      have hne : Nat.digits 10 n ≠ [] := Nat.digits_ne_nil_iff_ne_zero.mpr hzero
      rw [List.getLast?_eq_some_getLast hne, Option.some.injEq] at hd
      have hlast := Nat.getLast_digit_ne_zero 10 hzero
      rw [hd] at hlast
      have hlt : d < 10 := Nat.digits_lt_base (by decide) (hd ▸ List.getLast_mem hne)
      exact (digitByte_spec (by omega)).2.2.2.2.2 hlast hbyte
    rwa [value_numeral] at hpart

theorem dotted_dotted {a c : ℕ} (ha : a < 256) (hb : b < 256) (hc : c < 256) (hd : d < 256) :
    Dotted (dotted a b c d) (((a * 256 + b) * 256 + c) * 256 + d) := by
  refine ⟨[a, b, c], d, .cons (partText_decimal a) (.cons (partText_decimal b)
    (.cons (partText_decimal c) (.last (partText_decimal d)))), by simp, ?_, by simpa using hd, ?_⟩
  · grind
  · simp [value]

variable {cs : List UInt8}

theorem hexGroupFrom_eq (h : Digits 16 cs ds) (value : ℕ) :
    hexGroupFrom value cs = some (accumulate 16 value ds) := by
  induction cs generalizing value ds with
  | nil =>
    obtain rfl := List.eq_nil_of_length_eq_zero (length_digits h).symm
    rfl
  | cons c cs ih =>
    cases ds with
    | nil => exact absurd (length_digits h) (by simp)
    | cons d ds =>
      obtain ⟨hd, hlt, hcs⟩ := digits_cons.mp h
      have hstep : hexGroupFrom value (c :: cs) = hexGroupFrom (value <<< 4 ||| d) cs := by
        have hletters : ∀ c : UInt8,
            ('a'.toUInt8 ≤ c → (c - 'a'.toUInt8).toNat + 10 = c.toNat - 87) ∧
            ('A'.toUInt8 ≤ c → (c - 'A'.toUInt8).toNat + 10 = c.toNat - 55) := by decide
        rw [hexGroupFrom]
        unfold digit? at hd
        split_ifs at hd ⊢ with hdigit hlower hupper
        · rw [UInt8.toNat_sub_of_le _ _ hdigit.1, ← Option.some.inj hd]
          rfl
        · rw [(hletters c).1 hlower.1, Option.some.inj hd]
        · rw [(hletters c).2 hupper.1, Option.some.inj hd]
      rw [hstep, ih hcs, accumulate_cons, shiftLeft_or value (show d < 2 ^ 4 from hlt)]
      rfl

theorem parseHexGroup_lowerHex (g : UInt16) : parseHexGroup (lowerHex g.toNat) = some g := by
  have hlt : g.toNat < 16 ^ 4 := UInt16.toNat_lt g
  have hlength := numeral_length_le (b := 16) (by decide) (w := 4) (by decide) hlt
  have hdigits : ∀ d ∈ numeral 16 g.toNat, d < 16 :=
    fun d hd => lt_of_mem_numeral (by decide) hd
  have hlong : ¬ 4 < (lowerHex g.toNat).length := by
    rw [lowerHex, List.length_map]
    omega
  have hempty : (lowerHex g.toNat).isEmpty = false := List.isEmpty_eq_false_iff.mpr map_digits_ne_nil
  have hvalue : hexGroupFrom 0 (lowerHex g.toNat) = some g.toNat := by
    rw [lowerHex, hexGroupFrom_eq (digits_map (le_refl 16) hdigits)]
    exact congrArg some (value_numeral 16 g.toNat)
  rw [parseHexGroup, hempty, decide_eq_false hlong, hvalue]
  simp

/-! ## Groups -/

theorem expandGroups_hex (groups : List UInt16) :
    expandGroups (groups.map fun g => lowerHex g.toNat) = some groups := by
  induction groups with
  | nil => rfl
  | cons g groups ih =>
    have hdot : '.'.toUInt8 ∉ lowerHex g.toNat :=
      fun hmem => (plain_lowerHex g.toNat _ hmem).2.1 rfl
    rw [List.map_cons, expandGroups, if_neg hdot, parseHexGroup_lowerHex, ih]
    rfl

variable {groups : List UInt16}

theorem splitOn_joined (hne : groups ≠ []) :
    (joined groups).splitOn ':'.toUInt8 = groups.map fun g => lowerHex g.toNat := by
  refine List.splitOn_intercalate _ ?_ (by simpa using hne)
  intro l hl hmem
  obtain ⟨g, -, rfl⟩ := List.mem_map.mp hl
  exact (plain_lowerHex g.toNat _ hmem).1 rfl

theorem joined_ne_nil (hne : groups ≠ []) : joined groups ≠ [] := by
  obtain ⟨g, groups, rfl⟩ := List.exists_cons_of_ne_nil hne
  rw [joined_cons]
  exact List.append_ne_nil_of_left_ne_nil map_digits_ne_nil _

theorem side_joined (groups : List UInt16) : side (joined groups) = some groups := by
  unfold side
  by_cases hne : groups = []
  · rw [hne]
    rfl
  · rw [List.isEmpty_eq_false_iff.mpr (joined_ne_nil hne), splitOn_joined hne, expandGroups_hex]
    rfl

theorem findDouble_plain (h : ':'.toUInt8 ∉ cs) (s : List UInt8) :
    findDouble (cs ++ s) = (findDouble s).map (cs.length + ·) := by
  induction cs with
  | nil => simp
  | cons c cs ih =>
    have hc : c ≠ ':'.toUInt8 := fun heq => h (heq ▸ List.mem_cons_self)
    have hrest := ih fun hmem => h (List.mem_cons_of_mem c hmem)
    have hskip : ∀ s : List UInt8, findDouble (c :: s) = (findDouble s).map (· + 1) := by
      intro s
      cases s with
      | nil => rfl
      | cons d s => exact if_neg fun hboth => hc hboth.1
    rw [List.cons_append, hskip, hrest, Option.map_map]
    congr 1
    funext n
    simp
    omega

theorem findDouble_colon (h : s.head? ≠ some ':'.toUInt8) :
    findDouble (':'.toUInt8 :: s) = (findDouble s).map (· + 1) := by
  cases s with
  | nil => rfl
  | cons c s => exact if_neg fun hboth => h (congrArg some hboth.2)

theorem head_joined (groups : List UInt16) : (joined groups).head? ≠ some ':'.toUInt8 := by
  cases groups with
  | nil => simp [joined]
  | cons g groups =>
    obtain ⟨c, cs, hcs⟩ := List.exists_cons_of_ne_nil (map_digits_ne_nil (b := 16) (n := g.toNat))
    have hplain := plain_lowerHex g.toNat c (by rw [lowerHex, hcs]; exact List.mem_cons_self)
    rw [joined_cons, lowerHex, hcs]
    intro hhead
    exact hplain.1 (Option.some.inj hhead)

theorem findDouble_joined (groups : List UInt16) (s : List UInt8) :
    findDouble (joined groups ++ s) = (findDouble s).map ((joined groups).length + ·) := by
  induction groups with
  | nil => simp [joined]
  | cons g groups ih =>
    have hcolon : ':'.toUInt8 ∉ lowerHex g.toNat := fun hmem => (plain_lowerHex g.toNat _ hmem).1 rfl
    rw [joined_cons, List.append_assoc, findDouble_plain hcolon]
    by_cases hne : groups = []
    · rw [if_pos hne, List.nil_append, List.append_nil]
    · have hhead : (joined groups ++ s).head? ≠ some ':'.toUInt8 := by
        rw [List.head?_append_of_ne_nil _ (joined_ne_nil hne)]
        exact head_joined groups
      rw [if_neg hne, List.cons_append, findDouble_colon hhead, ih, Option.map_map, Option.map_map]
      congr 1
      funext n
      simp
      omega

theorem scanGroups_compressed {left right : List UInt16} {after : List UInt8}
    (hhead : after.head? ≠ some ':'.toUInt8) (hnone : findDouble after = none)
    (hafter : side after = some right) (hlength : left.length + right.length ≤ 7) :
    scanGroups (joined left ++ ':'.toUInt8 :: ':'.toUInt8 :: after) =
      .ok (some (left ++ List.replicate (8 - (left.length + right.length)) 0 ++ right)) := by
  have hdouble : findDouble (joined left ++ ':'.toUInt8 :: ':'.toUInt8 :: after) =
      some (joined left).length := by
    rw [findDouble_joined]
    rfl
  have hsecond : (joined left ++ ':'.toUInt8 :: ':'.toUInt8 :: after).drop
      ((joined left).length + 1) = ':'.toUInt8 :: after := by simp
  have hright : (joined left ++ ':'.toUInt8 :: ':'.toUInt8 :: after).drop
      ((joined left).length + 2) = after := by simp
  rw [scanGroups_of_some hdouble, hsecond, hright, findDouble_colon hhead, hnone, List.take_left,
    side_joined, hafter]
  simp only [Option.map_none, Option.isSome_none, Bool.false_eq_true, if_false, Option.bind_some]
  rw [if_neg (by omega)]

theorem mem_dotted {a c : ℕ} {ch : UInt8} (h : ch ∈ dotted a b c d) :
    ch ≠ ':'.toUInt8 ∧ ch ≠ '%'.toUInt8 := by
  have hdecimal : ∀ n, ch ∈ decimal n → ch ≠ ':'.toUInt8 ∧ ch ≠ '%'.toUInt8 := by
    intro n hn
    obtain ⟨hcolon, -, hpercent⟩ := plain_decimal n ch hn
    exact ⟨hcolon, hpercent⟩
  have hdot : ch = '.'.toUInt8 → ch ≠ ':'.toUInt8 ∧ ch ≠ '%'.toUInt8 := by
    rintro rfl
    decide
  simp only [dotted, List.mem_append, List.mem_cons] at h
  obtain h | h | h | h | h | h | h := h
  · exact hdecimal a h
  · exact hdot h
  · exact hdecimal b h
  · exact hdot h
  · exact hdecimal c h
  · exact hdot h
  · exact hdecimal d h

theorem side_mapped (g h : UInt16) :
    side ([102, 102, 102, 102] ++ ':'.toUInt8 ::
      dotted (g.toNat / 256) (g.toNat % 256) (h.toNat / 256) (h.toNat % 256)) =
      some [0xFFFF, g, h] := by
  have hg := UInt16.toNat_lt g
  have hh := UInt16.toNat_lt h
  obtain ⟨v, hv⟩ : ∃ v, UInt32.ofNat (g.toNat * 65536 + h.toNat) = v := ⟨_, rfl⟩
  have hvalue : v.toNat = g.toNat * 65536 + h.toNat := by
    rw [← hv, toNat_ofNat (by omega)]
  have haddress := dotted_dotted (a := g.toNat / 256) (b := g.toNat % 256) (c := h.toNat / 256)
    (d := h.toNat % 256) (by omega) (by omega) (by omega) (by omega)
  rw [show ((g.toNat / 256 * 256 + g.toNat % 256) * 256 + h.toNat / 256) * 256 + h.toNat % 256 =
    v.toNat by omega] at haddress
  have hparse := tryParseIPv4Groups_iff.mpr haddress
  obtain ⟨text, htext⟩ : ∃ text,
    dotted (g.toNat / 256) (g.toNat % 256) (h.toNat / 256) (h.toNat % 256) = text := ⟨_, rfl⟩
  have hcolon : ':'.toUInt8 ∉ text := fun hmem => (mem_dotted (htext ▸ hmem)).1 rfl
  have hdot : '.'.toUInt8 ∈ text := by
    rw [← htext]
    simp [dotted]
  rw [htext] at hparse ⊢
  have hhigh : (v >>> 16).toUInt16 = g := by
    rw [← UInt16.toNat_inj, UInt32.toNat_toUInt16, UInt32.toNat_shiftRight, hvalue]
    change (g.toNat * 65536 + h.toNat) >>> 16 % 2 ^ 16 = g.toNat
    omega
  have hlow : (v &&& 0xFFFF).toUInt16 = h := by
    rw [← UInt16.toNat_inj, UInt32.toNat_toUInt16, UInt32.toNat_and, hvalue]
    change ((g.toNat * 65536 + h.toNat) &&& (2 ^ 16 - 1)) % 2 ^ 16 = h.toNat
    rw [Nat.and_two_pow_sub_one_eq_mod]
    omega
  have hlast : expandGroups [text] = some [g, h] := by
    rw [expandGroups, if_pos hdot, if_neg (not_not.mpr rfl), hparse, Option.map_some, hhigh, hlow]
  have hsplit : ([102, 102, 102, 102] ++ ':'.toUInt8 :: text).splitOn ':'.toUInt8 =
      [[102, 102, 102, 102], text] := by
    rw [List.splitOn_append_cons_self_of_not_mem (by decide), List.splitOn_eq_singleton hcolon]
  have hempty : ([102, 102, 102, 102] ++ ':'.toUInt8 :: text).isEmpty = false := rfl
  rw [side, hempty, hsplit, expandGroups, if_neg (by decide), hlast]
  rfl

/-- **The text of an address is read back.** -/
theorem scanGroups_text (h : IPv6Text groups body)
    (hlength : groups.length = 8) : scanGroups body = .ok (some groups) := by
  cases h with
  | plain =>
    have hne : groups ≠ [] := by
      rintro rfl
      cases hlength
    have hnone := findDouble_joined groups []
    rw [List.append_nil] at hnone
    rw [scanGroups_of_none hnone, splitOn_joined hne, expandGroups_hex, Option.bind_some,
      if_neg (not_not.mpr hlength)]
  | @compressed _ start len hfirst htwo =>
    have hfits := hfirst.run.fits
    have hnone := findDouble_joined (groups.drop (start + len)) []
    rw [List.append_nil] at hnone
    have htake : (groups.take start).length = start := by
      rw [List.length_take]
      omega
    have hdrop : (groups.drop (start + len)).length = 8 - (start + len) := by
      rw [List.length_drop, hlength]
    have hzeros : List.replicate len 0 = (groups.drop start).take len := by
      refine List.ext_getElem (by simp; omega) fun i hi hi' => ?_
      rw [List.length_replicate] at hi
      have hzero := hfirst.run.holds (start + i) groups[start + i] (by omega) (by omega)
        (List.getElem?_eq_getElem (by omega))
      rw [isZero, beq_iff_eq] at hzero
      rw [List.getElem_replicate, List.getElem_take, List.getElem_drop, hzero]
    rw [scanGroups_compressed (head_joined _) hnone (side_joined _) (by omega), htake, hdrop,
      show 8 - (start + (8 - (start + len))) = len by omega, hzeros, List.append_assoc,
      ← List.drop_drop, List.take_append_drop, List.take_append_drop]
  | @mapped g h hfirst =>
    obtain ⟨text, htext⟩ : ∃ text,
      dotted (g.toNat / 256) (g.toNat % 256) (h.toNat / 256) (h.toNat % 256) = text := ⟨_, rfl⟩
    have hcolon : ':'.toUInt8 ∉ text := fun hmem => (mem_dotted (htext ▸ hmem)).1 rfl
    have hhead : text.head? ≠ some ':'.toUInt8 := fun hhead => hcolon (List.mem_of_head? hhead)
    have hafter := side_mapped g h
    have hnone := findDouble_plain hcolon []
    rw [List.append_nil] at hnone
    rw [htext] at hafter ⊢
    refine @scanGroups_compressed [] _ ([102, 102, 102, 102] ++ ':'.toUInt8 :: text)
      (fun hfour => by cases hfour) ?_ hafter (by simp)
    rw [findDouble_plain (by decide), findDouble_colon hhead, hnone]
    rfl

/-! ## Scopes -/

theorem isdigit_of_mem_decimal {n : ℕ} (h : c ∈ decimal n) : isdigit c = true := by
  obtain ⟨d, hd, rfl⟩ := List.mem_map.mp h
  have hlt : d < 10 := lt_of_mem_numeral (by decide) hd
  exact ((digitByte_spec (by omega)).2.2.2.2.1 hlt).1

theorem from_chars_decimal (n : UInt32) : from_chars (decimal n.toNat) = some (n, []) := by
  have hall : ∀ c ∈ decimal n.toNat, isdigit c = true := fun c hc => isdigit_of_mem_decimal hc
  have htake : (decimal n.toNat).takeWhile isdigit = decimal n.toNat :=
    List.takeWhile_eq_self_iff.mpr hall
  have hdrop : (decimal n.toNat).dropWhile isdigit = [] := List.dropWhile_eq_nil_iff.mpr hall
  have hdigits : (decimal n.toNat).map (fun c => (c - '0'.toUInt8).toNat) =
      numeral 10 n.toNat := by
    rw [decimal, List.map_map]
    refine (List.map_congr_left fun d hd => ?_).trans (List.map_id _)
    have hlt : d < 10 := lt_of_mem_numeral (by decide) hd
    exact ((digitByte_spec (by omega)).2.2.2.2.1 hlt).2
  have hlt := UInt32.toNat_lt n
  rw [from_chars]
  simp only [htake, hdrop, hdigits, value_numeral]
  rw [if_neg, UInt32.ofNat_toNat]
  rintro (hnil | hle)
  · exact map_digits_ne_nil hnil
  · omega

theorem takeScope_text (h : '%'.toUInt8 ∉ body) (scopeId : UInt32) :
    takeScope (body ++ scopeText scopeId) = .ok (some (scopeId, body)) := by
  by_cases hzero : scopeId = 0
  · have hnone : find body '%'.toUInt8 0 = none := find_eq_none.mpr h
    rw [scopeText, if_pos hzero, List.append_nil, takeScope, hnone, hzero]
    rfl
  · have hdrop : (body ++ '%'.toUInt8 :: decimal scopeId.toNat).drop (body.length + 1) =
        decimal scopeId.toNat := by simp
    have hempty : (decimal scopeId.toNat).isEmpty = false :=
      List.isEmpty_eq_false_iff.mpr map_digits_ne_nil
    have hall : (decimal scopeId.toNat).all isdigit = true :=
      List.all_eq_true.mpr fun c hc => isdigit_of_mem_decimal hc
    have hfits : body.length + 1 ≤ (body ++ '%'.toUInt8 :: decimal scopeId.toNat).length := by simp
    rw [scopeText, if_neg hzero, takeScope, find_append h]
    simp only [substrFrom_ok hfits, hdrop, substr_ok (Nat.zero_le _), List.drop_zero, List.take_left,
      bind, Except.bind, hempty, hall, from_chars_decimal]
    rfl

theorem mem_joined (h : c ∈ joined groups) : c ≠ '%'.toUInt8 := by
  induction groups with
  | nil => cases h
  | cons g groups ih =>
    rw [joined_cons, List.mem_append] at h
    obtain h | h := h
    · exact (plain_lowerHex g.toNat c h).2.2
    · split at h
      · cases h
      · obtain rfl | h := List.mem_cons.mp h
        · decide
        · exact ih h

theorem marks_of_text (h : IPv6Text groups body)
    (hlength : groups.length = 8) : '%'.toUInt8 ∉ body ∧ ':'.toUInt8 ∈ body := by
  cases h with
  | plain =>
    refine ⟨fun hmem => mem_joined hmem rfl, ?_⟩
    obtain _ | ⟨g, _ | ⟨g', groups⟩⟩ := groups
    · cases hlength
    · cases hlength
    · simp [joined_cons]
  | compressed =>
    refine ⟨fun hmem => ?_, List.mem_append_right _ List.mem_cons_self⟩
    simp only [List.mem_append, List.mem_cons] at hmem
    obtain hmem | hmem | hmem | hmem := hmem
    · exact mem_joined hmem rfl
    · exact absurd hmem (by decide)
    · exact absurd hmem (by decide)
    · exact mem_joined hmem rfl
  | mapped =>
    refine ⟨fun hmem => ?_, List.mem_append_left _ (by decide)⟩
    obtain hmem | hmem := List.mem_append.mp hmem
    · exact absurd hmem (by decide)
    · exact (mem_dotted hmem).2 rfl

/-! ## Addresses -/

theorem tryParseIPv6_format (groups : Vector UInt16 8) (scopeId : UInt32) :
    tryParseIPv6 (formatIPv6 groups scopeId) = .ok (some (groups, scopeId)) ∧
      find (formatIPv6 groups scopeId) ':'.toUInt8 0 ≠ none := by
  have hlength : groups.toList.length = 8 := by simp
  obtain ⟨body, htext, hformat⟩ := formatIPv6_text groups scopeId
  obtain ⟨hpercent, hcolon⟩ := marks_of_text htext hlength
  have hfind : find body ':'.toUInt8 0 ≠ none := fun hnone => find_eq_none.mp hnone hcolon
  refine ⟨?_, fun hnone => ?_⟩
  · have hsize : groups.toList.toArray.size = 8 := by simp
    rw [hformat, tryParseIPv6]
    simp only [takeScope_text hpercent, bind, Except.bind, if_neg hfind, scanGroups_text htext hlength,
      dif_pos hsize]
    rfl
  · grind [find_eq_none]

theorem or_and_octets (addr : UInt32) :
    Dotted (formatIPv4 addr) addr.toNat := by
  have hlt := UInt32.toNat_lt addr
  have hoctet : ∀ k : UInt32, ∀ n, k.toNat = n → n < 32 →
      (addr >>> k &&& 0xFF).toNat = addr.toNat / 2 ^ n % 256 := by
    intro k n hk hn
    rw [UInt32.toNat_and, UInt32.toNat_shiftRight, hk, Nat.mod_eq_of_lt hn, Nat.shiftRight_eq_div_pow]
    exact Nat.and_two_pow_sub_one_eq_mod _ 8
  have hlast : (addr &&& 0xFF).toNat = addr.toNat % 256 := by
    exact Nat.and_two_pow_sub_one_eq_mod _ 8
  have hdotted := dotted_dotted (a := addr.toNat / 2 ^ 24 % 256) (b := addr.toNat / 2 ^ 16 % 256)
    (c := addr.toNat / 2 ^ 8 % 256) (d := addr.toNat % 256) (by omega) (by omega) (by omega) (by omega)
  rw [show ((addr.toNat / 2 ^ 24 % 256 * 256 + addr.toNat / 2 ^ 16 % 256) * 256 +
    addr.toNat / 2 ^ 8 % 256) * 256 + addr.toNat % 256 = addr.toNat by omega] at hdotted
  rw [formatIPv4, hoctet 24 24 rfl (by decide), hoctet 16 16 rfl (by decide),
    hoctet 8 8 rfl (by decide), hlast]
  exact hdotted

/-- **The text of an address is read back as the address.** -/
theorem parse_text (a : IPAddress) : parse a.toString = .ok a := by
  obtain ⟨isIPv6_, addressOrScopeId_, numbers_, numbers_eq⟩ := a
  cases isIPv6_ with
  | true =>
    obtain ⟨hparse, hfind⟩ := tryParseIPv6_format numbers_ addressOrScopeId_
    simp only [parse, tryParse, IPAddress.toString, if_true, if_pos hfind, hparse, bind, Except.bind]
    rfl
  | false =>
    obtain rfl := numbers_eq rfl
    have hfind : find (formatIPv4 addressOrScopeId_) ':'.toUInt8 0 = none := by
      rw [find_eq_none, List.drop_zero]
      exact fun hmem => (mem_dotted hmem).1 rfl
    have hparse := tryParseIPv4Groups_iff.mpr (or_and_octets addressOrScopeId_)
    simp only [parse, tryParse, IPAddress.toString, Bool.false_eq_true, if_false, hfind,
      ne_eq, not_true_eq_false,
      hparse, bind, Except.bind]
    rfl

/-- **The text of IP addresses.**  Every address is read back from its text, so that no two addresses
have one text.  The text of an IPv6 address compresses the first of the longest runs of zeros, if there
is one of at least two groups.  No text makes the scanners throw, and a text without colons is an
address exactly when it is a dotted form of it. -/
theorem ip_address_text :
    (∀ a : IPAddress, parse a.toString = .ok a) ∧
    (∀ a b : IPAddress, a.toString = b.toString → a = b) ∧
    (∀ a : IPAddress, a.isIPv6_ = true → ∃ body, IPv6Text a.numbers_.toList body ∧
      a.toString = body ++ scopeText a.addressOrScopeId_) ∧
    (∀ s : List UInt8, ∃ r, tryParse s = .ok r) ∧
    ∀ s : List UInt8, ':'.toUInt8 ∉ s → ∀ a : IPAddress, tryParse s = .ok (some a) ↔
      a.isIPv6_ = false ∧ Dotted s a.addressOrScopeId_.toNat := by
  refine ⟨parse_text, fun a b heq => ?_, fun a ha => ?_, tryParse_ok, fun s hs a => ?_⟩
  · have ha := parse_text a
    rw [heq, parse_text b] at ha
    exact (Except.ok.inj ha).symm
  · rw [IPAddress.toString, if_pos ha]
    exact formatIPv6_text _ _
  · have hfind : find s ':'.toUInt8 0 = none := find_eq_none.mpr hs
    rw [tryParse, if_neg (not_not.mpr hfind), ← tryParseIPv4Groups_iff]
    constructor
    · intro h
      split at h
      · cases h
      · rename_i v hv
        cases h
        exact ⟨rfl, hv⟩
    · rintro ⟨hfamily, hv⟩
      obtain ⟨isIPv6_, addressOrScopeId_, numbers_, numbers_eq⟩ := a
      obtain rfl : isIPv6_ = false := hfamily
      obtain rfl := numbers_eq rfl
      rw [hv]
      rfl

end SharpRuntime.Analysis.AddressText
