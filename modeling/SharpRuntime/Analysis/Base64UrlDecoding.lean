import SharpRuntime.Analysis.Base64Decoding

/-!
# The decoder of `Base64Url`

The same invariant as for `Base64`, without padding: the letters of the last quantum are read only
after the padding behind them has been counted.
-/

set_option autoImplicit false
set_option maxRecDepth 20000

namespace SharpRuntime.Analysis.Base64UrlDecoding

open Machine Machine.Sextets
open Model Interface
open Base64Decoding (boundary_zero content_of_boundary decoded_invalidData
  decoded_tooSmall decoded_done decoded_needMoreData table_of_value)
open Base64Url
open Dialect

variable {c : UInt8}

theorem kDecTable_of_value {v : Fin 64} (hv : base64UrlDialect.value c = some v) :
    kDecTable.getD c.toNat (-1) = (v : ℕ) :=
  table_of_value (by decide) hv

theorem kDecTable_of_value_eq_none (hv : base64UrlDialect.value c = none) :
    kDecTable.getD c.toNat (-1) < 0 := by
  have h : tableValue kDecTable c = none := hv
  rw [tableValue] at h
  by_contra hnonneg
  grind

theorem vacant_le_two {n : ℕ} (h : 2 ≤ n) (h4 : n < 4) : vacant n = 4 - n := by
  rw [vacant]
  omega

theorem padded_eq (n : ℕ) (pads : List UInt8) :
    base64UrlDialect.padded n pads =
      (pads.all base64UrlDialect.isPad && decide (pads.length ≤ vacant n)) := rfl

theorem padded_nil (n : ℕ) : base64UrlDialect.padded n [] = true := by
  rw [padded_eq]
  simp

theorem countPadding_eq {k : ℕ} (hk : k ≤ 2) (src : List UInt8) :
    countPadding k src =
      if (base64UrlDialect.marks src).all base64UrlDialect.isPad = true ∧
        k + (base64UrlDialect.marks src).length ≤ 2 then
        some (k + (base64UrlDialect.marks src).length) else none := by
  induction src generalizing k with
  | nil =>
    rw [countPadding, marks_nil]
    simp [hk]
  | cons p src ih =>
    rw [countPadding]
    cases hblank : isWhitespace p with
    | true => rw [if_pos rfl, ih hk, marks_cons_of_isBlank _ hblank]
    | false =>
      rw [if_neg (by simp), marks_cons _ hblank, List.all_cons, List.length_cons]
      cases hpad : isPadding p with
      | false =>
        have hnot : base64UrlDialect.isPad p = false := hpad
        simp [hnot]
      | true =>
        have his : base64UrlDialect.isPad p = true := hpad
        rw [if_neg (by simp), his, Bool.true_and]
        by_cases htwo : k = 2
        · rw [if_pos htwo, if_neg (by omega)]
        · grind

/-- The state of the decoder as one of `Base64` that has read no padding. -/
def padless (st : DecodeState) : Base64.DecodeState :=
  ⟨st.si, st.dst, st.vals, st.valCount, 0, st.failCursor, st.consumed, st.written⟩

/-- `pre` has been read and `src` is left: `pre` is whole quanta, which stand for the bytes stored,
and the letters of `sexts`. -/
def Reading (t pre src : List UInt8) (dstLen : ℕ) (st : DecodeState)
    (sexts : List (Fin 64)) : Prop :=
  Base64Decoding.Reading base64UrlDialect t pre src dstLen (padless st) sexts

theorem padless_mark (st : DecodeState) : padless st.mark = (padless st).mark := by
  rw [DecodeState.mark]
  by_cases hcount : st.valCount = 0
  · rw [if_pos hcount]
    exact (if_pos hcount).symm
  · rw [if_neg hcount]
    exact (if_neg hcount).symm

namespace Reading

variable {t pre src : List UInt8} {dstLen : ℕ} {st : DecodeState}
  {sexts : List (Fin 64)}

theorem si (h : Reading t pre src dstLen st sexts) : st.si = pre.length :=
  Base64Decoding.Reading.si h

theorem fits (h : Reading t pre src dstLen st sexts) : st.dst.length ≤ dstLen :=
  Base64Decoding.Reading.fits h

theorem written (h : Reading t pre src dstLen st sexts) : st.written = st.dst.length :=
  Base64Decoding.Reading.written h

theorem whole (h : Reading t pre src dstLen st sexts) : st.dst.length % 3 = 0 :=
  Base64Decoding.Reading.whole h

theorem valCount (h : Reading t pre src dstLen st sexts) : st.valCount = sexts.length :=
  Base64Decoding.Reading.valCount h

theorem marks_text (h : Reading t pre src dstLen st sexts) :
    base64UrlDialect.marks t = base64UrlDialect.letters (sextets st.dst) ++
      (base64UrlDialect.letters sexts ++ base64UrlDialect.marks src) :=
  Base64Decoding.Reading.marks_text h

theorem length_marks (h : Reading t pre src dstLen st sexts) :
    (base64UrlDialect.marks t).length =
      st.dst.length / 3 * 4 + sexts.length + (base64UrlDialect.marks src).length := by
  rw [← h.valCount]
  exact Base64Decoding.Reading.length_marks h

theorem content_of_noLetterHead (h : Reading t pre src dstLen st sexts)
    (hhead : base64UrlDialect.NoLetterHead (base64UrlDialect.marks src)) :
    base64UrlDialect.content (base64UrlDialect.marks t) =
      (if base64UrlDialect.padded sexts.length (base64UrlDialect.marks src) then octets sexts
        else none).map (st.dst ++ ·) := by
  rw [h.content_text]
  exact congrArg _ (content_letters _ _ hhead)

theorem content_eq_none (h : Reading t pre src dstLen st sexts)
    (hhead : base64UrlDialect.NoLetterHead (base64UrlDialect.marks src))
    (hbad : base64UrlDialect.padded sexts.length (base64UrlDialect.marks src) = false ∨
      octets sexts = none) :
    base64UrlDialect.content (base64UrlDialect.marks t) = none := by
  grind [h.content_of_noLetterHead]

theorem mark (h : Reading t pre src dstLen st sexts) :
    Reading t pre src dstLen st.mark sexts ∧
      Boundary base64UrlDialect t st.mark.dst st.mark.failCursor := by
  have hmark := Base64Decoding.Reading.mark h
  rw [← padless_mark] at hmark
  exact hmark

variable {ch : UInt8}

theorem letter {v : Fin 64} (h : Reading t pre (ch :: src) dstLen st sexts)
    (hmark : Boundary base64UrlDialect t st.dst st.failCursor)
    (hv : base64UrlDialect.value ch = some v) :
    Reading t (pre ++ [ch]) src dstLen { st.push v with si := st.si + 1 } (sexts ++ [v]) :=
  Base64Decoding.Reading.letter h hmark hv rfl

variable {isFinalBlock : Bool}

variable {bytes : List UInt8}

theorem content_some (h : Reading t pre src dstLen st sexts)
    (hhead : base64UrlDialect.NoLetterHead (base64UrlDialect.marks src))
    (hpadded : base64UrlDialect.padded sexts.length (base64UrlDialect.marks src) = true)
    (hbytes : octets sexts = some bytes) :
    base64UrlDialect.content (base64UrlDialect.marks t) = some (st.dst ++ bytes) := by
  rw [h.content_of_noLetterHead hhead, if_pos hpadded, hbytes]
  rfl

theorem decoded_last (h : Reading t pre src dstLen st sexts)
    (hfail : Boundary base64UrlDialect t st.dst st.failCursor)
    (hhead : base64UrlDialect.NoLetterHead (base64UrlDialect.marks src))
    (hpadded : base64UrlDialect.padded sexts.length (base64UrlDialect.marks src) = true)
    (hbytes : octets sexts = some bytes) (hlength : bytes.length + 1 = sexts.length)
    (hcount : sexts.length < 4) :
    Decoded base64UrlDialect t dstLen true
      (if dstLen - st.dst.length < bytes.length then st.fail .destinationTooSmall
        else ⟨.done, t.length, (st.dst ++ bytes).length, st.dst ++ bytes⟩) := by
  have hcontent := h.content_some hhead hpadded hbytes
  by_cases hspace : dstLen - st.dst.length < bytes.length
  · rw [if_pos hspace, DecodeState.fail, h.written]
    apply decoded_tooSmall hfail h.fits hspace
    · have hwhole := h.whole
      have hfull : ¬base64UrlDialect.padsFully = true := nofun
      rw [capacity, if_neg hfull, h.length_marks]
      omega
    · intro bytes' hbytes'
      grind
  · grind [h.fits, decoded_done]

theorem decoded_endOfText (h : Reading t pre src dstLen st sexts) (hcount : st.valCount < 4)
    (hhead : base64UrlDialect.NoLetterHead (base64UrlDialect.marks src))
    (hpadded : base64UrlDialect.padded sexts.length (base64UrlDialect.marks src) = true)
    (hpads : isFinalBlock = false → base64UrlDialect.marks src = []) {si : ℕ}
    (hsi : si = t.length) :
    Decoded base64UrlDialect t dstLen isFinalBlock
      (endOfText dstLen isFinalBlock { st with si := si }) := by
  have hvalCount := h.valCount
  rw [endOfText]
  by_cases hpending : st.valCount > 0
  · have hfail := h.failCursor hpending
    simp only [if_pos hpending]
    cases hblock : isFinalBlock with
    | false =>
      simp only [Bool.not_false, if_true, h.written]
      exact decoded_needMoreData h.consumed h.fits rfl
    | true =>
      have hreject : octets sexts = none →
          Decoded base64UrlDialect t dstLen true (st.fail .invalidData) := fun hnone =>
        h.fail_invalidData hfail fun _ => h.content_eq_none hhead (.inr hnone)
      match sexts, h with
      | [], _ =>
        grind
      | [_], _ =>
        have hone : st.valCount = 1 := hvalCount
        simp only [if_pos hone]
        exact hreject rfl
      | [x, y], h =>
        have htwo : st.valCount = 2 := hvalCount
        have hx : st.vals 0 = x := h.vals 0 (by simp)
        have hy : st.vals 1 = y := h.vals 1 (by simp)
        simp only [htwo, OfNat.ofNat_ne_one, if_false, if_true, hx, hy, and_spare₁,
          or_sextets_two, ofNat_pack_octet₀, hsi]
        by_cases hspare : (y : ℕ) % 16 = 0
        · rw [if_neg (not_not.mpr hspare)]
          exact h.decoded_last hfail hhead hpadded (if_pos hspare) rfl (by simp)
        · rw [if_pos hspare]
          exact hreject (if_neg hspare)
      | [x, y, z], h =>
        have hthree : st.valCount = 3 := hvalCount
        have hx : st.vals 0 = x := h.vals 0 (by simp)
        have hy : st.vals 1 = y := h.vals 1 (by simp)
        have hz : st.vals 2 = z := h.vals 2 (by simp)
        simp only [hthree, OfNat.ofNat_ne_one, if_false, hx, hy, hz, and_spare₂,
          or_sextets_three, ofNat_pack_octet₀, ofNat_pack_octet₁, hsi]
        by_cases hspare : (z : ℕ) % 4 = 0
        · rw [if_neg (not_not.mpr hspare)]
          exact h.decoded_last hfail hhead hpadded (if_pos hspare) rfl (by simp)
        · rw [if_pos hspare]
          exact hreject (if_neg hspare)
      | _ :: _ :: _ :: _ :: _, _ =>
        grind
  · simp only [if_neg hpending, hsi]
    have hsexts : sexts = [] := List.eq_nil_of_length_eq_zero (by omega)
    have hnone : octets sexts = some [] := by
      rw [hsexts]
      rfl
    have hcontent := h.content_some hhead hpadded hnone
    rw [List.append_nil] at hcontent
    refine decoded_done h.fits hcontent fun hblock => ⟨le_rfl, h.whole, ?_⟩
    simp [h.marks_text, hpads hblock, hsexts, letters_nil]

theorem padding (h : Reading t pre (ch :: src) dstLen st sexts)
    (hmark : Boundary base64UrlDialect t st.dst st.failCursor) (hcount : st.valCount < 4)
    (hblank : isWhitespace ch = false) (hpad : base64UrlDialect.isPad ch = true) :
    Decoded base64UrlDialect t dstLen isFinalBlock
      (if !isFinalBlock then st.fail .invalidData
        else if st.valCount < 2 then st.fail .invalidData
        else
          match countPadding 0 (ch :: src) with
          | none => st.fail .invalidData
          | some padCount =>
            if st.valCount + padCount > 4 then st.fail .invalidData
            else endOfText dstLen isFinalBlock
              { st with si := st.si + (ch :: src).length }) := by
  have hvalue := base64UrlDialect.value_of_isPad hpad
  have hmarks : base64UrlDialect.marks (ch :: src) = ch :: base64UrlDialect.marks src :=
    marks_cons _ hblank _
  have hhead : base64UrlDialect.NoLetterHead (base64UrlDialect.marks (ch :: src)) := by
    rw [hmarks]
    intro c hc
    obtain rfl : ch = c := by simpa using hc
    exact hvalue
  cases hblock : isFinalBlock with
  | false => exact h.fail_invalidData hmark nofun
  | true =>
    have hreject : (base64UrlDialect.padded sexts.length (base64UrlDialect.marks (ch :: src)) = false ∨
        octets sexts = none) → Decoded base64UrlDialect t dstLen true (st.fail .invalidData) :=
      fun hbad => h.fail_invalidData hmark fun _ => h.content_eq_none hhead hbad
    rw [if_neg (by simp)]
    by_cases htwo : st.valCount < 2
    · -- A quantum of fewer than two letters cannot be padded.
      rw [if_pos htwo]
      apply hreject
      have hlength := h.valCount
      match sexts, hlength with
      | [], _ =>
        left
        apply padded_of_lt
        rw [hmarks, List.length_cons]
        exact Nat.succ_pos _
      | [_], _ => exact .inr rfl
      | _ :: _ :: _, hlength =>
        grind
    · rw [if_neg htwo, countPadding_eq (by decide)]
      have hvacant := vacant_le_two (n := sexts.length) (by rw [← h.valCount]; omega)
        (by rw [← h.valCount]; exact hcount)
      by_cases hall : (base64UrlDialect.marks (ch :: src)).all base64UrlDialect.isPad = true
      · by_cases hlength : 0 + (base64UrlDialect.marks (ch :: src)).length ≤ 2
        · rw [if_pos ⟨hall, hlength⟩]
          by_cases hroom : st.valCount + (0 + (base64UrlDialect.marks (ch :: src)).length) > 4
          · simp only [if_pos hroom]
            apply hreject
            left
            apply padded_of_lt
            rw [hvacant, ← h.valCount]
            omega
          · simp only [if_neg hroom]
            refine h.decoded_endOfText hcount hhead ?_ (fun hfalse => ?_) ?_
            · rw [padded_eq, hall, Bool.true_and, decide_eq_true_eq, hvacant, ← h.valCount]
              omega
            · cases hfalse
            · rw [h.text, h.si, List.length_append]
        · rw [if_neg fun hboth => hlength hboth.2]
          apply hreject
          left
          apply padded_of_lt
          have hvalCount := h.valCount
          omega
      · rw [if_neg fun hboth => hall hboth.1]
        apply hreject
        left
        rw [padded_eq, Bool.eq_false_iff.mpr hall, Bool.false_and]

end Reading

theorem decoded_decodeLoop {t pre src : List UInt8} {dstLen : ℕ} {st : DecodeState}
    {sexts : List (Fin 64)} {isFinalBlock : Bool} (h : Reading t pre src dstLen st sexts)
    (hcount : st.valCount < 4) :
    Decoded base64UrlDialect t dstLen isFinalBlock
      (decodeLoop dstLen isFinalBlock st src) := by
  induction src generalizing pre st sexts with
  | nil =>
    exact h.decoded_endOfText hcount nofun (padded_nil _) (fun _ => rfl)
      (by rw [h.si, h.text, List.append_nil])
  | cons ch src ih =>
    rw [decodeLoop]
    cases hblank : isWhitespace ch with
    | true =>
      exact ih (h.blank hblank) hcount
    | false =>
      obtain ⟨hmarked, hmark⟩ := h.mark
      have hmarkedCount : st.mark.valCount < 4 := by
        rw [DecodeState.mark]
        split <;> exact hcount
      cases hpad : isPadding ch with
      | true => exact hmarked.padding hmark hmarkedCount hblank hpad
      | false =>
        simp only [Bool.false_eq_true, if_false]
        cases hv : base64UrlDialect.value ch with
        | none =>
          simp only [if_pos (kDecTable_of_value_eq_none hv)]
          refine hmarked.fail_invalidData hmark fun _ => hmarked.content_eq_none ?_ (.inl ?_)
          · rw [marks_cons _ hblank]
            intro c hc
            obtain rfl : ch = c := by simpa using hc
            exact hv
          · exact padded_of_mem _ (by rw [marks_cons _ hblank]; simp) hpad _
        | some v =>
          have hnonneg : ¬((v : ℕ) : ℤ) < 0 := by omega
          have hread := hmarked.letter hmark hv
          simp only [kDecTable_of_value hv, if_neg hnonneg, Int.toNat_natCast]
          by_cases hfour : (st.mark.push v).valCount = 4
          · simp only [if_pos hfour]
            have hlength : (sexts ++ [v]).length = 4 := hread.valCount.symm.trans hfour
            obtain ⟨x, y, z, w, hquantum⟩ := List.length_eq_four.mp hlength
            rw [hquantum] at hread
            have hx : (st.mark.push v).vals 0 = x := hread.vals 0 (by simp)
            have hy : (st.mark.push v).vals 1 = y := hread.vals 1 (by simp)
            have hz : (st.mark.push v).vals 2 = z := hread.vals 2 (by simp)
            have hw : (st.mark.push v).vals 3 = w := hread.vals 3 (by simp)
            obtain ⟨hfull, hcommit⟩ := Base64Decoding.Reading.quantum isFinalBlock hread
              (hread.failCursor (Nat.lt_of_lt_of_eq (by decide) hfour.symm)) rfl
            rw [hx, hy, hz, hw, or_sextets, ofNat_pack_octet₀, ofNat_pack_octet₁,
              ofNat_pack_octet₂]
            by_cases hspace : dstLen - (st.mark.push v).dst.length < 3
            · rw [if_pos hspace]
              exact hfull hspace
            · rw [if_neg hspace]
              exact ih (hcommit hspace) (Nat.succ_pos _)
          · simp only [if_neg hfour]
            refine ih hread ?_
            have hstep : (st.mark.push v).valCount = st.mark.valCount + 1 := rfl
            simp
            omega

theorem decoded (t : List UInt8) (dstLen : ℕ) (isFinalBlock : Bool) :
    Decoded base64UrlDialect t dstLen isFinalBlock
      (decodeFromUtf8 t dstLen isFinalBlock) :=
  decoded_decodeLoop (Base64Decoding.Reading.initial _ t dstLen) (by decide)

end SharpRuntime.Analysis.Base64UrlDecoding
