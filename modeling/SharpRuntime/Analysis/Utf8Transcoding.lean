import SharpRuntime.Analysis.UnicodeEncoding
import SharpRuntime.Machine.UnicodeReaders

/-!
# The laws of the UTF-8 transcoder

Both directions are the transcoder of `Transcodes`: their scans are the readers of the two codes,
and their loop makes its run, in the destination.  The third scanner, that of the validation, reads
the same scalars.  The laws are those of the runs; the counts that a call reports are cut to 32
bits, so what they count must be less.
-/

set_option autoImplicit false

namespace SharpRuntime.Analysis.Utf8Transcoding

open Machine Interface Model Model.Utf8Scalar Model.Utf8Transcoder Analysis.Utf8Scalar
open Analysis.UnicodeEncoding
open Utf8

/-! ## The scans -/

variable (isFinalBlock : Bool)

theorem fromUtf16_scan_eq (s : List UInt16) :
    fromUtf16.scan isFinalBlock s = Utf16.scan isFinalBlock s := by
  have hhigh : ∀ u : UInt16, 0xD800 ≤ u ∧ u ≤ 0xDBFF ↔ Utf16.IsHigh u := by
    intro u
    exact and_congr_right fun _ => Nat.lt_succ_iff.symm
  have hlow : ∀ u : UInt16, 0xDC00 ≤ u ∧ u ≤ 0xDFFF ↔ Utf16.IsLow u := by
    intro u
    exact and_congr_right fun _ => Nat.lt_succ_iff.symm
  cases s with
  | nil => rfl
  | cons u s =>
    rw [Utf16.scan_cons]
    cases s with
    | nil =>
      rw [fromUtf16.scan]
      simp only [hhigh, hlow, ite_not]
    | cons v s =>
      have hpair : 0x10000 + (u.toNat - 0xD800) <<< 10 + (v.toNat - 0xDC00) = Utf16.pair u v := by
        rw [Nat.shiftLeft_eq]
        rfl
      rw [fromUtf16.scan, hpair]
      simp only [hhigh, hlow]

theorem scanContinuation_eq {len : ℕ} (left k minCp cp : ℕ)
    (hk : 0 < k) (hlen : k + left = len) (s : List UInt8) :
    toUtf16.scanContinuation isFinalBlock len minCp left k cp s =
      scanTails isFinalBlock minCp left k cp s := by
  have hinvalid : ∀ {n : ℕ}, 0 < n → toUtf16.invalid n = .bad n := by
    intro n hn
    rw [toUtf16.invalid, if_neg (by omega)]
  induction left generalizing k cp s with
  | zero =>
    have hgood : (cp < minCp ∨ 0x10FFFF < cp ∨ (0xD800 ≤ cp ∧ cp ≤ 0xDFFF)) ↔
        ¬ (minCp ≤ cp ∧ Scalar cp) := by
      rw [not_and_or, not_scalar_iff, not_le]
    grind [toUtf16.scanContinuation, scanTails]
  | succ left ih =>
    cases s with
    | nil =>
      rw [toUtf16.scanContinuation, scanTails, hinvalid hk, ite_not]
    | cons b s =>
      rw [toUtf16.scanContinuation, scanTails, hinvalid hk, ite_not]
      simp only [mask_C0_iff, toNat_and_3F]
      rw [fields_two _ (Nat.mod_lt _ (by decide)), ih _ _ (by omega) (by omega)]

theorem toUtf16_scan_eq (s : List UInt8) :
    toUtf16.scan isFinalBlock s = scan isFinalBlock s := by
  cases s with
  | nil => rfl
  | cons b s =>
    rw [toUtf16.scan, scan]
    simp only [mask_E0_iff, mask_F0_iff, mask_F8_iff, lt_iff_toNat, UInt8.reduceToNat,
      toNat_and_mask _ (w := 5) (m := 0x1F) rfl, toNat_and_mask _ (w := 4) (m := 0x0F) rfl,
      toNat_and_mask _ (w := 3) (m := 0x07) rfl]
    by_cases h1 : b.toNat < 0x80
    · have hgood : 0 ≤ b.toNat ∧ Scalar b.toNat := ⟨Nat.zero_le _, Or.inl (by omega)⟩
      simp [lead?, h1, scanTails, hgood]
    · rw [if_neg h1, lead?, if_neg h1]
      by_cases h2 : b.toNat < 0xC0
      · rw [if_neg (by omega), if_neg (by omega), if_neg (by omega), if_pos h2]
        rfl
      · rw [if_neg h2]
        by_cases h3 : b.toNat < 0xE0
        · grind [scanContinuation_eq]
        · rw [if_neg (by omega), if_neg h3]
          by_cases h4 : b.toNat < 0xF0
          · grind [scanContinuation_eq]
          · rw [if_neg (by omega), if_neg h4]
            by_cases h5 : b.toNat < 0xF8
            · grind [scanContinuation_eq]
            · rw [if_neg (by omega), if_neg h5]
              rfl

/-! ## What is written -/

theorem fromUtf16_units_eq {cp : ℕ} (h : cp < 0x110000) :
    fromUtf16.units cp = utf8.encode cp ∧ fromUtf16.needed cp = (utf8.encode cp).length := by
  have happend := appendUtf8Scalar_eq [] h
  have hunits : fromUtf16.units cp = appendUtf8Scalar [] cp := by
    unfold fromUtf16.units fromUtf16.needed appendUtf8Scalar
    split_ifs <;> rfl
  have hneeded : fromUtf16.needed cp = (encode cp).length := by
    rw [length_encode]
    rfl
  exact ⟨hunits.trans happend, hneeded⟩

theorem toUtf16_units_eq (cp : ℕ) :
    toUtf16.units cp = utf16.encode cp ∧ toUtf16.needed cp = (utf16.encode cp).length := by
  have hneeded : toUtf16.needed cp = (Utf16.encode cp).length := by
    rw [Utf16.length_encode]
    rfl
  refine ⟨?_, hneeded⟩
  change toUtf16.units cp = Utf16.encode cp
  unfold toUtf16.units toUtf16.needed
  by_cases h : cp < 0x10000
  · rw [if_pos h, if_pos rfl, Utf16.encode_one h]
  · have hmask : cp - 0x10000 &&& 0x3FF = (cp - 0x10000) % 1024 :=
      Nat.and_two_pow_sub_one_eq_mod _ 10
    have hshift : (cp - 0x10000) >>> 10 = (cp - 0x10000) / 1024 := Nat.shiftRight_eq_div_pow _ 10
    rw [if_neg h, if_neg (by decide), Utf16.encode_two (by omega)]
    dsimp only
    rw [hmask, hshift]

/-! ## The loop -/

section Loop

def statusOf : Halt → OperationStatus
  | .done => .done
  | .full => .destinationTooSmall
  | .starved => .needMoreData
  | .malformed => .invalidData

variable {α β : Type} {code : ScalarCode α} {reader : Reader code} {target : ScalarCode β}
  {needed : ℕ → ℕ} {units : ℕ → List β} {replace final : Bool} {scan : List α → Reading}

variable {s : Cursors β}

theorem put_eq (hneeded : ∀ c, Scalar c → needed c = (target.encode c).length)
    (hunits : ∀ c, Scalar c → units c = target.encode c) {c n : ℕ}
    (hc : Scalar c) :
    (∀ halt, Machine.put target (s.destination.length - s.di) c n = .inl halt →
      Utf8Transcoder.put needed units s c n = { s with status := some (statusOf halt) }) ∧
    (∀ d m, Machine.put target (s.destination.length - s.di) c n = .inr (d, m) →
      Utf8Transcoder.put needed units s c n =
        { s with
          si := s.si + m
          di := s.di + (target.encode d).length
          destination := store s.destination s.di (target.encode d) }) := by
  have hpos := target.length_encode_pos c
  rw [Utf8Transcoder.put, hneeded c hc, hunits c hc]
  constructor
  · intro halt hput
    obtain ⟨hfull, rfl⟩ := put_eq_inl_iff.mp hput
    rw [if_pos (by omega)]
    rfl
  · intro d m hput
    obtain ⟨hfits, rfl, rfl⟩ := put_eq_inr_iff.mp hput
    rw [if_neg (by omega)]

variable {rest : List α}

theorem turn_eq (hneeded : ∀ c, Scalar c → needed c = (target.encode c).length)
    (hunits : ∀ c, Scalar c → units c = target.encode c) :
    (∀ halt, move reader target replace final (s.destination.length - s.di) rest = .inl halt →
      turn needed units replace s (reader.read final rest) =
        { s with status := some (statusOf halt) }) ∧
    (∀ c n, move reader target replace final (s.destination.length - s.di) rest = .inr (c, n) →
      turn needed units replace s (reader.read final rest) =
        { s with
          si := s.si + n
          di := s.di + (target.encode c).length
          destination := store s.destination s.di (target.encode c) }) := by
  unfold move turn
  cases hread : reader.read final rest with
  | more =>
    refine ⟨fun halt h => ?_, nofun⟩
    obtain rfl := Sum.inl.inj h
    rfl
  | scalar c n =>
    exact put_eq hneeded hunits (code.of_read? ((reader.read_scalar_iff final).mp hread)).1
  | bad n =>
    cases replace with
    | true => exact put_eq hneeded hunits scalar_replacement
    | false =>
      refine ⟨fun halt h => ?_, nofun⟩
      obtain rfl := Sum.inl.inj h
      rfl

theorem store_nil (destination : List β) (di : ℕ) : store destination di [] = destination := by
  rw [store, List.append_nil, List.length_nil, Nat.add_zero, List.take_append_drop]

variable {destination : List β}

variable {di : ℕ} {us : List β}

theorem length_store (h : di + us.length ≤ destination.length) :
    (store destination di us).length = destination.length := by
  simp [store]
  omega

theorem store_store {vs : List β} (h : di + us.length ≤ destination.length) :
    store (store destination di us) (di + us.length) vs = store destination di (us ++ vs) := by
  have hlength : (destination.take di ++ us).length = di + us.length := by
    simp
    omega
  unfold store
  rw [List.take_left' hlength, List.drop_append, hlength, List.drop_of_length_le (by omega),
    List.nil_append, List.drop_drop, List.length_append, Nat.add_sub_cancel_left,
    List.append_assoc _ us vs, Nat.add_assoc]

variable {source : List α} {halt : Halt} {taken : ℕ} {written : List β}

theorem loop_eq (hneeded : ∀ c, Scalar c → needed c = (target.encode c).length)
    (hunits : ∀ c, Scalar c → units c = target.encode c)
    (hscan : ∀ s, scan s = reader.read final s) {room : ℕ}
    (h : Transcodes reader target replace final room rest halt taken written) (fuel : ℕ)
    (s : Cursors β) (hrest : source.drop s.si = rest)
    (hdi : s.di ≤ s.destination.length) (hroom : s.destination.length - s.di = room)
    (hstatus : s.status = none) (hfuel : rest.length ≤ fuel) :
    (Run.whileLoop (fun s : Cursors β => decide (s.si < source.length ∧ s.status.isNone))
      (fun s => pure (turn needed units replace s (scan (source.drop s.si)))) fuel s :
        Run Exception (Cursors β)) =
      pure ⟨s.si + taken, s.di + written.length, store s.destination s.di written,
        if halt = .done then none else some (statusOf halt)⟩ := by
  -- the condition of the loop, while there is something left and at the end
  have hgo : ∀ s : Cursors β, s.status = none → source.drop s.si ≠ [] →
      decide (s.si < source.length ∧ s.status.isNone) = true := by
    intro s hnone hne
    rw [Ne, List.drop_eq_nil_iff, not_le] at hne
    exact decide_eq_true ⟨hne, by rw [hnone]; rfl⟩
  induction h generalizing fuel s with
  | done room =>
    rw [List.drop_eq_nil_iff] at hrest
    obtain ⟨si, di, destination, status⟩ := s
    subst hstatus
    rw [store_nil, if_pos rfl]
    exact Run.whileLoop_of_not (decide_eq_false fun hlt => by omega)
  | @stop room rest halt hne hmove =>
    have hdone : halt ≠ .done := by
      intro hdone
      have hend := (Transcodes.stop hne hmove).of_halt.1.mp hdone
      exact hne (List.length_eq_zero_iff.mp hend.symm)
    have hcond := hgo s hstatus (hrest ▸ hne)
    obtain ⟨fuel, rfl⟩ := Nat.exists_eq_succ_of_ne_zero
      (Nat.lt_of_lt_of_le (List.length_pos_iff.mpr hne) hfuel).ne'
    rw [← hroom] at hmove
    simp only [Run.whileLoop, hcond, if_true, pure_bind]
    rw [hrest, hscan, (turn_eq hneeded hunits).1 halt hmove, store_nil, if_neg hdone]
    exact Run.whileLoop_of_not (decide_eq_false fun hgoes => by cases hgoes.2)
  | @next room rest c n halt taken written hne hmove _ ih =>
    obtain ⟨hc, hpos, hle⟩ := of_move_inr hne hmove
    have hfits := (move_eq_inr_iff.mp hmove).1
    have hcond := hgo s hstatus (hrest ▸ hne)
    have hend : s.di + (target.encode c).length ≤ s.destination.length := by omega
    obtain ⟨fuel, rfl⟩ := Nat.exists_eq_succ_of_ne_zero
      (Nat.lt_of_lt_of_le (List.length_pos_iff.mpr hne) hfuel).ne'
    rw [← hroom] at hmove
    simp only [Run.whileLoop, hcond, if_true, pure_bind]
    rw [hrest, hscan, (turn_eq hneeded hunits).2 c n hmove, ih]
    · rw [store_store hend, List.length_append, Nat.add_assoc, Nat.add_assoc]
    · rw [← List.drop_drop, hrest]
    · rwa [length_store hend]
    · dsimp only
      rw [length_store hend]
      omega
    · exact hstatus
    · rw [List.length_drop]
      omega

/-- What a call leaves behind is its run: the status, the units written at the beginning of the
destination, and the two counts. -/
theorem transcode_eq (hneeded : ∀ c, Scalar c → needed c = (target.encode c).length)
    (hunits : ∀ c, Scalar c → units c = target.encode c)
    (hscan : ∀ s, scan s = reader.read final s)
    (h : Transcodes reader target replace final destination.length source halt taken written) :
    transcode needed units replace scan source destination =
      pure ⟨statusOf halt, written ++ destination.drop written.length, toIntcs taken,
        toIntcs written.length⟩ := by
  have hloop := loop_eq hneeded hunits hscan h source.length ⟨0, 0, destination, none⟩ rfl
    (Nat.zero_le _) rfl rfl le_rfl
  have hstatus : (if halt = .done then none else some (statusOf halt)).getD .done =
      statusOf halt := by
    split
    case isTrue hdone => rw [hdone]; rfl
    case isFalse => rfl
  grind [transcode, store]

end Loop

/-! ## The two directions -/

theorem toUtf16_eq (source : List UInt8) (destination : List UInt16) (replace final : Bool) :
    ∃ halt taken written,
      Transcodes reader utf16 replace final destination.length source halt taken written ∧
        toUtf16 source destination replace final =
          pure ⟨statusOf halt, written ++ destination.drop written.length, toIntcs taken,
            toIntcs written.length⟩ := by
  obtain ⟨halt, taken, written, h⟩ :=
    Transcodes.exists_run reader utf16 replace final destination.length source
  exact ⟨halt, taken, written, h, transcode_eq (fun c _ => (toUtf16_units_eq c).2)
    (fun c _ => (toUtf16_units_eq c).1) (toUtf16_scan_eq final) h⟩

theorem fromUtf16_eq (source : List UInt16) (destination : List UInt8) (replace final : Bool) :
    ∃ halt taken written,
      Transcodes Utf16.reader utf8 replace final destination.length source halt taken written ∧
        fromUtf16 source destination replace final =
          pure ⟨statusOf halt, written ++ destination.drop written.length, toIntcs taken,
            toIntcs written.length⟩ := by
  obtain ⟨halt, taken, written, h⟩ :=
    Transcodes.exists_run Utf16.reader utf8 replace final destination.length source
  exact ⟨halt, taken, written, h, transcode_eq (fun c hc => (fromUtf16_units_eq hc.lt).2)
    (fun c hc => (fromUtf16_units_eq hc.lt).1) (fromUtf16_scan_eq final) h⟩

/-! ## Validation -/

theorem checkedSequence_eq (b0 : UInt8) (value : List UInt8) (tails cp minCp : ℕ) :
    checkedSequence (b0 :: value) (tails + 1) cp minCp =
      (tails? tails cp value).bind fun c =>
        if minCp ≤ c ∧ Scalar c then some (tails + 1) else none := by
  rw [checkedSequence, Nat.add_sub_cancel, List.drop_one, List.tail_cons, continuations_eq]
  cases htails : tails? tails cp value with
  | none => exact ite_self _
  | some c =>
    have hlength := le_length_of_tails? htails
    by_cases hgood : minCp ≤ c ∧ Scalar c
    · grind [not_scalar_iff]
    · grind [not_scalar_iff]

variable {value : List UInt8}

theorem sequenceLength_eq (h : value ≠ []) :
    sequenceLength value = (utf8.read? value).map Prod.snd := by
  obtain ⟨b0, value, rfl⟩ := List.exists_cons_of_ne_nil h
  have hread : (utf8.read? (b0 :: value)).map Prod.snd = (lead? b0).bind fun lead =>
      (tails? lead.tails lead.payload value).bind fun c =>
        if lead.minimum ≤ c ∧ Scalar c then some (lead.tails + 1) else none := by
    rw [read?_cons, Option.map_bind]
    refine Option.bind_congr fun lead _ => ?_
    rw [Function.comp_apply, Option.map_bind]
    refine Option.bind_congr fun c _ => ?_
    simp
  rw [hread]
  simp only [sequenceLength, List.getD_cons_zero, lt_iff_toNat, UInt8.reduceToNat, mask_E0_iff,
    mask_F0_iff, mask_F8_iff, checkedSequence_eq b0 value 1, checkedSequence_eq b0 value 2,
    checkedSequence_eq b0 value 3, toNat_and_mask _ (w := 5) (m := 0x1F) rfl,
    toNat_and_mask _ (w := 4) (m := 0x0F) rfl, toNat_and_mask _ (w := 3) (m := 0x07) rfl]
  by_cases h1 : b0.toNat < 0x80
  · have hgood : 0 ≤ b0.toNat ∧ Scalar b0.toNat := ⟨Nat.zero_le _, Or.inl (by omega)⟩
    simp [h1, lead?, Option.bind_some, tails?, hgood]
  · rw [if_neg h1, lead?, if_neg h1]
    by_cases h2 : b0.toNat < 0xC0
    · grind
    · grind

variable {i : ℕ}

theorem validation_loop {rest : List UInt8} (h : utf8.ReadTo rest i) (fuel : ℕ)
    (start : ℕ) (hrest : value.drop start = rest) (hstart : start ≤ value.length)
    (hfuel : rest.length ≤ fuel) :
    (Run.whileLoop (fun s : ℕ × Option ℤ => decide (s.1 < value.length ∧ s.2.isNone))
      (fun s => pure (validate value s)) fuel (start, none) : Run Exception _) =
      pure (start + i, if start + i = value.length then none else some (toIntcs (start + i))) := by
  have hgo : ∀ {start : ℕ}, value.drop start ≠ [] →
      decide ((start, (none : Option ℤ)).1 < value.length ∧ (start, (none : Option ℤ)).2.isNone) =
        true := by simp
  induction h generalizing fuel start with
  | nil => grind [Run.whileLoop_of_not]
  | @stop rest hne hread =>
    have hcond := hgo (hrest ▸ hne)
    obtain ⟨fuel, rfl⟩ := Nat.exists_eq_succ_of_ne_zero
      (Nat.lt_of_lt_of_le (List.length_pos_iff.mpr hne) hfuel).ne'
    have hshort : ¬ start + 0 = value.length := by
      rintro rfl
      exact hne (hrest ▸ List.drop_length)
    have hturn : validate value (start, none) = (start, some (toIntcs start)) := by
      simp only [validate, hrest, sequenceLength_eq hne, hread, Option.map_none]
    simp only [Run.whileLoop, hcond, if_true, pure_bind, hturn]
    rw [if_neg hshort]
    exact Run.whileLoop_of_not (decide_eq_false fun hgoes => by cases hgoes.2)
  | @next rest c n i hread _ ih =>
    obtain ⟨hpos, hle⟩ := utf8.length_of_read? hread
    have hne : rest ≠ [] := List.length_pos_iff.mp (by omega)
    have hcond := hgo (hrest ▸ hne)
    have hlength := congrArg List.length hrest
    rw [List.length_drop] at hlength
    obtain ⟨fuel, rfl⟩ := Nat.exists_eq_succ_of_ne_zero
      (Nat.lt_of_lt_of_le (List.length_pos_iff.mpr hne) hfuel).ne'
    have hturn : validate value (start, none) = (start + n, none) := by
      simp only [validate, hrest, sequenceLength_eq hne, hread, Option.map_some]
    simp only [Run.whileLoop, hcond, if_true, pure_bind, hturn]
    rw [ih fuel (start + n) (by rw [← List.drop_drop, hrest]) (by omega)
      (by rw [List.length_drop]; omega), Nat.add_assoc]

theorem indexOfInvalidSubsequence_eq (h : utf8.ReadTo value i) :
    indexOfInvalidSubsequence value = pure (if i = value.length then -1 else toIntcs i) := by
  have hloop := validation_loop h value.length 0 rfl (Nat.zero_le _) le_rfl
  rw [indexOfInvalidSubsequence, hloop, pure_bind, Nat.zero_add]
  dsimp only
  by_cases hend : i = value.length
  · rw [if_pos hend, if_pos hend, Option.getD_none]
  · rw [if_neg hend, if_neg hend, Option.getD_some]

/-! ## The laws -/

section Laws

variable {α β : Type} {code : ScalarCode α} {reader : Reader code} {target : ScalarCode β}
  {factor : ℕ} {call : List α → List β → Bool → Bool → Run Exception (Transcoding β)}

variable {halt : Halt}

theorem statusOf_inj {halt' : Halt} (h : statusOf halt = statusOf halt') : halt = halt' := by
  revert h
  cases halt <;> cases halt' <;> decide

theorem counted {source : List α} {destination : List β} {replace final : Bool}
    {taken : ℕ} {written : List β} {r : Transcoding β}
    (h : Transcodes reader target replace final destination.length source halt taken written)
    (hr : r = ⟨statusOf halt, written ++ destination.drop written.length, toIntcs taken,
      toIntcs written.length⟩)
    (hsource : source.length ≤ intcsMax) (hdestination : destination.length ≤ intcsMax) :
    r.status = statusOf halt ∧ r.read = taken ∧ r.written = written.length ∧
      output r = written := by
  obtain ⟨htaken, hwritten⟩ := h.length_le
  simp [hr, output, toIntcs_of_le (htaken.trans hsource),
    toIntcs_of_le (hwritten.trans hdestination)]

theorem obeysLaws
    (hcall : ∀ s d replace final, ∃ halt taken written,
      Transcodes reader target replace final d.length s halt taken written ∧
        call s d replace final = pure ⟨statusOf halt, written ++ d.drop written.length,
          toIntcs taken, toIntcs written.length⟩)
    (hscalar : ∀ c, (target.encode c).length ≤ factor * (code.encode c).length)
    (hreplacement : (target.encode 0xFFFD).length ≤ factor) :
    ObeysLaws code reader.skip target factor call where
  returns := by
    intro s d replace final
    obtain ⟨halt, taken, written, -, hr⟩ := hcall s d replace final
    exact ⟨_, hr⟩
  taken := by
    intro s d replace final r hs hd hr
    obtain ⟨halt, taken, written, hrun, hreturns⟩ := hcall s d replace final
    rw [hreturns, Run.pure_inj] at hr
    obtain ⟨hstatus, hread, hwritten, houtput⟩ := counted hrun hr.symm hs hd
    obtain ⟨htaken, hfits⟩ := hrun.length_le
    rw [hread, hwritten, houtput, hstatus, Int.toNat_natCast, Int.toNat_natCast]
    refine ⟨⟨by omega, by omega⟩, ⟨by omega, by omega⟩, hrun.written_eq, ?_, ?_, ?_⟩
    · rw [← hr]
    · rintro rfl
      exact hrun.wellFormed_taken
    · rw [Nat.cast_inj, ← hrun.of_halt.1]
      exact ⟨fun h => statusOf_inj h, fun h => congrArg statusOf h⟩
  roomy := by
    intro s d replace final r hroom hr
    obtain ⟨halt, taken, written, hrun, hreturns⟩ := hcall s d replace final
    rw [hreturns, Run.pure_inj] at hr
    have hfull := hrun.not_full hscalar hreplacement hroom
    rw [← hr]
    exact fun h => hfull (statusOf_inj h)
  wellFormed := by
    intro cs d replace final r hcs hd hr hsmall
    obtain ⟨halt, taken, written, hrun, hreturns⟩ := hcall (code.encodeAll cs) d replace final
    rw [hreturns, Run.pure_inj] at hr
    have hfull : halt ≠ .full := by
      rintro rfl
      exact hsmall (hr ▸ rfl)
    have hscalars : Transcodes reader target replace final
        (max d.length (target.encodeAll cs).length) (code.encodeAll cs) .done
        (code.encodeAll cs).length (target.encodeAll cs) :=
      Transcodes.of_scalars hcs (Nat.le_max_right _ _)
    obtain ⟨rfl, -, rfl⟩ := (hrun.of_room hfull
      (hrun.length_le.2.trans (Nat.le_max_left _ _))).unique hscalars
    rw [← hr, output]
    rw [toIntcs_of_le (hrun.length_le.2.trans hd), Int.toNat_natCast, List.take_left]
    exact ⟨rfl, rfl⟩
  split := by
    intro s t d₁ d₂ d replace final r₁ r₂ r hst hd₁ hd₂ hd hr₁ hr₂ hr hrooms
    obtain ⟨halt₁, taken₁, written₁, hrun₁, hreturns₁⟩ := hcall s d₁ replace false
    rw [hreturns₁, Run.pure_inj] at hr₁
    have hlength := hst
    rw [List.length_append] at hlength
    obtain ⟨-, hread₁, hwritten₁, houtput₁⟩ := counted hrun₁ hr₁.symm (by omega) hd₁
    rw [hread₁, Int.toNat_natCast] at hr₂
    obtain ⟨halt₂, taken₂, written₂, hrun₂, hreturns₂⟩ :=
      hcall (s.drop taken₁ ++ t) d₂ replace final
    rw [hreturns₂, Run.pure_inj] at hr₂
    obtain ⟨hstatus₂, hread₂, hwritten₂, houtput₂⟩ := counted hrun₂ hr₂.symm
      (by rw [List.length_append, List.length_drop]; omega) hd₂
    obtain ⟨halt, taken, written, hrun, hreturns⟩ := hcall (s ++ t) d replace final
    rw [hreturns, Run.pure_inj] at hr
    obtain ⟨hstatus, hread, hwritten, houtput⟩ := counted hrun hr.symm hst hd
    have hwhole := hrun₁.append hrun₂
    have hsame : halt = halt₂ ∧ taken = taken₁ + taken₂ ∧ written = written₁ ++ written₂ := by
      rcases hrooms with ⟨hfull₂, hfull⟩ | hrooms
      · have hne₂ : halt₂ ≠ .full := fun h => hfull₂ (by rw [hstatus₂, h]; rfl)
        have hne : halt ≠ .full := fun h => hfull (by rw [hstatus, h]; rfl)
        exact (hrun.of_room hne (hrun.length_le.2.trans (Nat.le_max_left _ _))).unique
          (hwhole.of_room hne₂ (hwhole.length_le.2.trans (Nat.le_max_right d.length _)))
      · grind [hrun.unique]
    grind

end Laws

theorem length_encode16_le (c : ℕ) : (utf16.encode c).length ≤ 1 * (utf8.encode c).length := by
  have h8 : (utf8.encode c).length = _ := length_encode c
  have h16 : (utf16.encode c).length = _ := Utf16.length_encode c
  rw [h8, h16]
  split_ifs <;> omega

theorem length_encode8_le (c : ℕ) : (utf8.encode c).length ≤ 3 * (utf16.encode c).length := by
  have h8 : (utf8.encode c).length = _ := length_encode c
  have h16 : (utf16.encode c).length = _ := Utf16.length_encode c
  rw [h8, h16]
  split_ifs <;> omega

theorem toUtf16_obeysLaws : ObeysLaws utf8 reader.skip utf16 1 toUtf16 :=
  obeysLaws toUtf16_eq length_encode16_le (by decide)

theorem fromUtf16_obeysLaws : ObeysLaws utf16 Utf16.reader.skip utf8 3 fromUtf16 :=
  obeysLaws fromUtf16_eq length_encode8_le (by decide)

variable {b : List UInt8} {room taken : ℕ} {halt : Halt} {written : List UInt16}

theorem malformed_of_short (h : Transcodes reader utf16 false true room b halt taken written)
    (hfull : halt ≠ .full) (hend : taken ≠ b.length) : halt = .malformed := by
  obtain ⟨hdone, hstarved, -⟩ := h.of_halt
  cases halt with
  | done => exact absurd (hdone.mp rfl) hend
  | full => exact absurd rfl hfull
  | starved => cases hstarved rfl
  | malformed => rfl

theorem index_iff (h : Transcodes reader utf16 false true room b halt taken written)
    (hfull : halt ≠ .full) (hb : b.length ≤ intcsMax) :
    ((if taken = b.length then -1 else toIntcs taken) = -1 ↔ statusOf halt = .done) ∧
      ((if taken = b.length then -1 else toIntcs taken) ≠ -1 →
        statusOf halt = .invalidData ∧
          toIntcs taken = if taken = b.length then -1 else toIntcs taken) := by
  have hcount := toIntcs_of_le (h.length_le.1.trans hb)
  by_cases hend : taken = b.length
  · obtain rfl := h.of_halt.1.mpr hend
    rw [if_pos hend]
    exact ⟨iff_of_true rfl rfl, fun hne => absurd rfl hne⟩
  · rw [if_neg hend, hcount, malformed_of_short h hfull hend]
    exact ⟨iff_of_false (by omega) nofun, fun _ => ⟨rfl, rfl⟩⟩

/-- **The laws of the UTF-8 transcoder**: for sources and destinations that the counts can count,
the index of the first invalid subsequence is the position where `toUtf16` stops for invalid data;
`toUtf16` and `fromUtf16` are inverse on well-formed text; and each of them writes exactly the
transcoding of what it reports as taken, and the same for a source in two parts. -/
theorem utf8_transcoder :
    (∀ b d, b.length ≤ intcsMax → ∃ r index, toUtf16 b d false true = pure r ∧
      indexOfInvalidSubsequence b = pure index ∧ (r.status ≠ .destinationTooSmall →
        (index = -1 ↔ r.status = .done) ∧
        (index ≠ -1 → r.status = .invalidData ∧ r.read = index))) ∧
    (∀ b d replace final r, utf8.WellFormed b → d.length ≤ intcsMax →
      toUtf16 b d replace final = pure r → r.status ≠ .destinationTooSmall →
        r.status = .done ∧ utf16.WellFormed (output r) ∧
        ∀ d' replace' final' r', d'.length ≤ intcsMax →
          fromUtf16 (output r) d' replace' final' = pure r' → r'.status ≠ .destinationTooSmall →
            r'.status = .done ∧ output r' = b) ∧
    (∀ u d replace final r, utf16.WellFormed u → d.length ≤ intcsMax →
      fromUtf16 u d replace final = pure r → r.status ≠ .destinationTooSmall →
        r.status = .done ∧ utf8.WellFormed (output r) ∧
        ∀ d' replace' final' r', d'.length ≤ intcsMax →
          toUtf16 (output r) d' replace' final' = pure r' → r'.status ≠ .destinationTooSmall →
            r'.status = .done ∧ output r' = u) ∧
    ObeysLaws utf8 reader.skip utf16 1 toUtf16 ∧
    ObeysLaws utf16 Utf16.reader.skip utf8 3 fromUtf16 := by
  refine ⟨?_, ?_, ?_, toUtf16_obeysLaws, fromUtf16_obeysLaws⟩
  · intro b d hb
    obtain ⟨halt, taken, written, hrun, hreturns⟩ := toUtf16_eq b d false true
    obtain ⟨i, hi⟩ := utf8.exists_readTo b
    refine ⟨_, _, hreturns, indexOfInvalidSubsequence_eq hi, fun hsmall => ?_⟩
    have hfull : halt ≠ .full := by
      rintro rfl
      exact hsmall rfl
    obtain rfl := hi.unique (hrun.readTo hfull)
    dsimp only
    exact index_iff hrun hfull hb
  · rintro b d replace final r ⟨cs, hcs, rfl⟩ hd hr hsmall
    obtain ⟨hdone, houtput⟩ :=
      toUtf16_obeysLaws.wellFormed cs d replace final r hcs hd hr hsmall
    rw [houtput]
    exact ⟨hdone, ⟨cs, hcs, rfl⟩, fun d' replace' final' r' hd' hr' hsmall' =>
      fromUtf16_obeysLaws.wellFormed cs d' replace' final' r' hcs hd' hr' hsmall'⟩
  · rintro u d replace final r ⟨cs, hcs, rfl⟩ hd hr hsmall
    obtain ⟨hdone, houtput⟩ :=
      fromUtf16_obeysLaws.wellFormed cs d replace final r hcs hd hr hsmall
    rw [houtput]
    exact ⟨hdone, ⟨cs, hcs, rfl⟩, fun d' replace' final' r' hd' hr' hsmall' =>
      toUtf16_obeysLaws.wellFormed cs d' replace' final' r' hcs hd' hr' hsmall'⟩

/-- A letter and a euro sign, whose bytes are cut between two calls. -/
theorem utf8_transcoder_cut :
    ∃ r₁ r₂, toUtf16 [0x41, 0xE2, 0x82] [0, 0] false false = pure r₁ ∧
      toUtf16 [0xE2, 0x82, 0xAC] [0, 0] false true = pure r₂ ∧
      output r₁ ++ output r₂ = [0x41, 0x20AC] := by
  obtain ⟨-, -, -, hlaws, -⟩ := utf8_transcoder
  refine ⟨⟨.needMoreData, [0x41, 0], 1, 1⟩, ⟨.done, [0x20AC, 0], 3, 1⟩, by decide, by decide, ?_⟩
  have hsplit := hlaws.split [0x41, 0xE2, 0x82] [0xAC] [0, 0] [0, 0] [0, 0, 0] false true
    ⟨.needMoreData, [0x41, 0], 1, 1⟩ ⟨.done, [0x20AC, 0], 3, 1⟩ ⟨.done, [0x41, 0x20AC, 0], 4, 2⟩
    (by decide) (by decide) (by decide) (by decide) (by decide) (by decide) (by decide)
    (Or.inr (by decide))
  exact hsplit.2.2.symm

theorem readTo_letters (n : ℕ) : utf8.ReadTo (List.replicate n 0x41 ++ [0xFF]) n := by
  induction n with
  | zero => exact .stop (by decide) rfl
  | succ n ih =>
    have hread : utf8.read? (0x41 :: (List.replicate n 0x41 ++ [0xFF])) = some (0x41, 1) := rfl
    rw [List.replicate_succ, List.cons_append, Nat.add_comm]
    exact .next hread ih

/-- Letters and a byte that is none, at an index that the count cannot tell from -1. -/
theorem index_is_cut :
    indexOfInvalidSubsequence (List.replicate (2 ^ 32 - 1) 0x41 ++ [0xFF]) = pure (-1) ∧
      ∃ r, toUtf16 (List.replicate (2 ^ 32 - 1) 0x41 ++ [0xFF]) (List.replicate (2 ^ 32) 0)
        false true = pure r ∧ r.status = .invalidData := by
  have hmany : ∀ n : ℕ, toIntcs n = -1 →
      indexOfInvalidSubsequence (List.replicate n 0x41 ++ [0xFF]) = pure (-1) ∧
        ∃ r, toUtf16 (List.replicate n 0x41 ++ [0xFF]) (List.replicate (n + 1) 0)
          false true = pure r ∧ r.status = .invalidData := by
    intro n hn
    obtain ⟨halt, taken, written, hrun, hreturns⟩ :=
      toUtf16_eq (List.replicate n 0x41 ++ [0xFF]) (List.replicate (n + 1) 0) false true
    have hlength : (List.replicate n (0x41 : UInt8) ++ [0xFF]).length = n + 1 := by
      rw [List.length_append, List.length_replicate, List.length_singleton]
    have hfull := hrun.not_full length_encode16_le (by decide)
      (by rw [hlength, List.length_replicate, Nat.one_mul])
    obtain rfl := (hrun.readTo hfull).unique (readTo_letters n)
    refine ⟨?_, _, hreturns, ?_⟩
    · rw [indexOfInvalidSubsequence_eq (readTo_letters taken), hlength, if_neg (by omega), hn]
    · rw [malformed_of_short hrun hfull (by omega)]
      rfl
  exact hmany (2 ^ 32 - 1) (by decide)

end SharpRuntime.Analysis.Utf8Transcoding
