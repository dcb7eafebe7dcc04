import SharpRuntime.Analysis.Base64RoundTrip

/-!
# The validators agree with the decoders

Each validator is a second machine over the same text.  It runs in step with the final-block
decoder of its class into a destination with room enough (`validateLoop_eq`): its counter is the
number of bytes the decoder has stored.
-/

set_option autoImplicit false

namespace SharpRuntime.Analysis.Base64Validation

open Machine Machine.Sextets
open Model Interface
open Base64Url
open Base64.DecodeState
open Base64RoundTrip

/-- What a validator says of a text that the decoder ends on with `r`. -/
def verdict (r : Transfer) : Bool × ℕ := if r.status = .done then (true, r.dst.length) else (false, 0)

theorem verdict_of_ne {r : Transfer} (h : r.status ≠ .done) : verdict r = (false, 0) := if_neg h

namespace Base64

def count (st : Base64.DecodeState) : Base64.ValidateState :=
  ⟨st.dst.length, st.vals, st.valCount, st.padCount⟩

theorem count_mark (st : Base64.DecodeState) : count st.mark = count st := by
  rw [mark]
  split <;> rfl

theorem validateSymbol_eq (v : ℤ) (st : Base64.DecodeState) :
    Base64.validateSymbol v (count st) = (Base64.takeSymbol true v st).map count := by
  rw [Base64.validateSymbol, Base64.takeSymbol]
  simp only [Bool.not_true, Bool.false_eq_true, if_false]
  by_cases hinvalid : v = -1
  · rw [if_pos hinvalid, if_pos hinvalid, Option.map_none]
  · rw [if_neg hinvalid, if_neg hinvalid]
    by_cases hpad : v = -2
    · rw [if_pos hpad, if_pos hpad]
      by_cases htwo : st.valCount < 2
      · have htwo' : (count st).valCount < 2 := htwo
        rw [if_pos htwo, if_pos htwo', Option.map_none]
      · have htwo' : ¬(count st).valCount < 2 := htwo
        rw [if_neg htwo, if_neg htwo', Option.map_some]
        rfl
    · rw [if_neg hpad, if_neg hpad]
      by_cases hzero : st.padCount > 0
      · have hzero' : (count st).padCount > 0 := hzero
        rw [if_pos hzero, if_pos hzero', Option.map_none]
      · have hzero' : ¬(count st).padCount > 0 := hzero
        rw [if_neg hzero, if_neg hzero', Option.map_some]
        rfl

theorem padCount_of_takeSymbol {v : ℤ} {st st' : Base64.DecodeState}
    (h : Base64.takeSymbol true v st = some st')
    (hpad : st.padCount = 0 ∨ st.padCount + 2 ≤ st.valCount) :
    st'.dst = st.dst ∧ st'.valCount = st.valCount + 1 ∧
      (st'.padCount = 0 ∨ st'.padCount + 2 ≤ st'.valCount) := by
  rw [Base64.takeSymbol] at h
  simp only [Bool.not_true, Bool.false_eq_true, if_false] at h
  split at h
  · cases h
  · split at h
    · grind [push]
    · grind [push]

variable {dstLen : ℕ}

theorem quantumBytes_cases (st : Base64.DecodeState) (hpad : st.padCount ≤ 2)
    (hspace : st.dst.length + 3 ≤ dstLen) :
    (Base64.quantumBytes dstLen st = .error .invalidData ∧
      (st.padCount = 1 ∧ st.vals 2 &&& 0x03 ≠ 0 ∨ st.padCount = 2 ∧ st.vals 1 &&& 0x0F ≠ 0)) ∨
    ∃ bytes, Base64.quantumBytes dstLen st = .ok bytes ∧
      ¬(st.padCount = 1 ∧ st.vals 2 &&& 0x03 ≠ 0) ∧ ¬(st.padCount = 2 ∧ st.vals 1 &&& 0x0F ≠ 0) ∧
      bytes.length = if st.padCount = 0 then 3 else if st.padCount = 1 then 2 else 1 := by
  rw [Base64.quantumBytes]
  rcases (by omega : st.padCount = 0 ∨ st.padCount = 1 ∨ st.padCount = 2) with h | h | h
  · right
    grind
  · grind
  · grind

theorem validateLoop_eq (srcLen : ℕ) (st : Base64.DecodeState) {src : List UInt8}
    (hspace : st.dst.length + 3 * src.length ≤ dstLen) (hcount : st.valCount < 4)
    (hpad : st.padCount = 0 ∨ st.padCount + 2 ≤ st.valCount) :
    Base64.validateLoop (count st) src =
      verdict (Base64.decodeLoop srcLen dstLen true st src) := by
  induction src generalizing st with
  | nil =>
    rw [Base64.validateLoop, Base64.decodeLoop, Base64.endOfText]
    by_cases hpending : st.valCount > 0
    · have hpending' : (count st).valCount > 0 := hpending
      rw [if_pos hpending', if_pos hpending]
      rfl
    · have hpending' : ¬(count st).valCount > 0 := hpending
      rw [if_neg hpending', if_neg hpending]
      rfl
  | cons ch src ih =>
    rw [List.length_cons] at hspace
    rw [Base64.validateLoop, Base64.decodeLoop]
    cases hblank : Base64.isWhitespace ch with
    | true =>
      exact ih { st with si := st.si + 1 } (by simp only; omega) hcount hpad
    | false =>
      rw [if_neg (by simp), if_neg (by simp), ← count_mark st, validateSymbol_eq]
      have hmark : st.mark.dst = st.dst ∧ st.mark.valCount = st.valCount ∧
          st.mark.padCount = st.padCount := by
        rw [mark]
        split <;> exact ⟨rfl, rfl, rfl⟩
      cases htake : Base64.takeSymbol true (Base64.kDecTable.getD ch.toNat (-1)) st.mark with
      | none => rfl
      | some st' =>
        obtain ⟨hdst, hstep, hpad'⟩ :=
          padCount_of_takeSymbol htake (by rw [hmark.2.1, hmark.2.2]; exact hpad)
        rw [hmark.1] at hdst
        simp only [Option.map_some]
        by_cases hfour : st'.valCount = 4
        · have hfour' : (count st').valCount = 4 := hfour
          simp only [if_pos hfour, if_pos hfour']
          obtain ⟨herror, hspare⟩ | ⟨bytes, hok, hone, htwo, hbytes⟩ :=
            quantumBytes_cases st' (by omega) (by rw [hdst]; omega : st'.dst.length + 3 ≤ dstLen)
          · rw [herror]
            rcases hspare with hone | htwo
            · have hone' : (count st').padCount = 1 ∧ (count st').vals 2 &&& 0x03 ≠ 0 := hone
              rw [if_pos hone']
              rfl
            · have hone' : ¬((count st').padCount = 1 ∧ (count st').vals 2 &&& 0x03 ≠ 0) := by
                rintro ⟨hone, -⟩
                exact absurd (hone.symm.trans htwo.1) (by decide)
              have htwo' : (count st').padCount = 2 ∧ (count st').vals 1 &&& 0x0F ≠ 0 := htwo
              rw [if_neg hone', if_pos htwo']
              rfl
          · have hone' : ¬((count st').padCount = 1 ∧ (count st').vals 2 &&& 0x03 ≠ 0) := hone
            have htwo' : ¬((count st').padCount = 2 ∧ (count st').vals 1 &&& 0x0F ≠ 0) := htwo
            have hdi : (count st').di + (if (count st').padCount = 0 then 3
                else if (count st').padCount = 1 then 2 else 1) = (st'.commit bytes).dst.length := by
              rw [commit, List.length_append, hbytes]
              rfl
            rw [hok, if_neg hone', if_neg htwo', hdi]
            by_cases hpadded : st'.padCount > 0
            · have hpadded' : (count st').padCount > 0 := hpadded
              simp only [if_pos hpadded, if_pos hpadded', Base64.afterPadding]
              split <;> rfl
            · have hpadded' : ¬(count st').padCount > 0 := hpadded
              simp only [if_neg hpadded, if_neg hpadded']
              refine ih { st'.commit bytes with valCount := 0, padCount := 0 } ?_
                (Nat.succ_pos _) (.inl rfl)
              grind [commit]
        · have hfour' : ¬(count st').valCount = 4 := hfour
          grind

end Base64

namespace Base64Url

def count (st : DecodeState) : ValidateState :=
  ⟨st.dst.length, st.vals, st.valCount⟩

variable (st : DecodeState)

theorem mark_eq :
    st.mark.dst = st.dst ∧ st.mark.vals = st.vals ∧ st.mark.valCount = st.valCount := by
  rw [DecodeState.mark]
  split <;> exact ⟨rfl, rfl, rfl⟩

theorem validatePadding_eq (padCount : ℕ) (src : List UInt8) :
    validatePadding padCount src = countPadding padCount src := by
  induction src generalizing padCount with
  | nil => rfl
  | cons p src ih => rw [validatePadding, countPadding, ih, ih]

variable {dstLen : ℕ}

theorem validateEnd_eq (hspace : st.dst.length + 2 ≤ dstLen) (hcount : st.valCount < 4) :
    validateEnd (count st) = verdict (endOfText dstLen true st) := by
  have hvalCount : (count st).valCount = st.valCount := rfl
  have hvals : (count st).vals = st.vals := rfl
  have hdi : (count st).di = st.dst.length := rfl
  rw [validateEnd, endOfText, hvalCount, hvals, hdi]
  rcases (by omega : st.valCount = 0 ∨ st.valCount = 1 ∨ st.valCount = 2 ∨ st.valCount = 3)
    with h | h | h | h
  · simp [h, verdict]
  · simp [h, verdict, DecodeState.fail]
  · grind [verdict, DecodeState.fail]
  · grind [verdict, DecodeState.fail]

theorem validateLoop_eq {src : List UInt8}
    (hspace : st.dst.length + 3 * src.length + 2 ≤ dstLen) (hcount : st.valCount < 4) :
    validateLoop (count st) src = verdict (decodeLoop dstLen true st src) := by
  induction src generalizing st with
  | nil => exact validateEnd_eq st (by simpa using hspace) hcount
  | cons ch src ih =>
    rw [List.length_cons] at hspace
    obtain ⟨hdst, hvals, hvalCount⟩ := mark_eq st
    have hmark : count st.mark = count st := by rw [count, count, hdst, hvals, hvalCount]
    rw [validateLoop, decodeLoop]
    cases hblank : isWhitespace ch with
    | true =>
      exact ih { st with si := st.si + 1 } (by simp only; omega) hcount
    | false =>
      simp only [Bool.false_eq_true, if_false]
      rw [← hmark]
      cases hpad : isPadding ch with
      | true =>
        simp only [Bool.not_true, Bool.false_eq_true, if_false, if_true, validatePadding_eq]
        by_cases htwo : st.mark.valCount < 2
        · have htwo' : (count st.mark).valCount < 2 := htwo
          rw [if_pos htwo, if_pos htwo']
          rfl
        · have htwo' : ¬(count st.mark).valCount < 2 := htwo
          rw [if_neg htwo, if_neg htwo']
          cases countPadding 0 (ch :: src) with
          | none => rfl
          | some padCount =>
            by_cases hmany : st.mark.valCount + padCount > 4
            · have hmany' : (count st.mark).valCount + padCount > 4 := hmany
              simp only [if_pos hmany, if_pos hmany']
              rfl
            · have hmany' : ¬(count st.mark).valCount + padCount > 4 := hmany
              simp only [if_neg hmany, if_neg hmany']
              exact validateEnd_eq { st.mark with si := st.mark.si + (ch :: src).length }
                (by simp only [hdst]; omega) (by simp only [hvalCount]; exact hcount)
      | false =>
        by_cases hinvalid : kDecTable.getD ch.toNat (-1) < 0
        · rw [if_pos hinvalid, if_pos hinvalid]
          rfl
        · rw [if_neg hinvalid, if_neg hinvalid]
          set v := (kDecTable.getD ch.toNat (-1)).toNat
          have hstep : (st.mark.push v).valCount = st.valCount + 1 := by
            rw [← hvalCount]
            rfl
          have hdst' : (st.mark.push v).dst = st.dst := hdst
          by_cases hfour : (st.mark.push v).valCount = 4
          · have hfour' : ((count st.mark).push v).valCount = 4 := hfour
            have hroom : ¬dstLen - (st.mark.push v).dst.length < 3 := by
              rw [hdst']
              omega
            rw [if_pos hfour, if_pos hfour', if_neg hroom]
            refine (congrArg (validateLoop · src) ?_).trans
              (ih (({ st.mark.push v with si := st.mark.si + 1 } :
                DecodeState).commit _) ?_ (Nat.succ_pos _))
            · simp only [count, DecodeState.commit, List.length_append]
              rfl
            · simp [DecodeState.commit, hdst']
              omega
          · have hfour' : ¬((count st.mark).push v).valCount = 4 := hfour
            rw [if_neg hfour, if_neg hfour']
            exact ih { st.mark.push v with si := st.mark.si + 1 }
              (by simp only [hdst']; omega) (by simp only [hstep]; omega)

end Base64Url

theorem isValid_eq (c : Codec) (t : List UInt8) :
    c.isValid t = match c.dialect.content (c.dialect.marks t) with
      | some bytes => (true, bytes.length)
      | none => (false, 0) := by
  have hdecoded := decoded c t (3 * t.length + 2) true
  have hverdict : c.isValid t = verdict (c.decode t (3 * t.length + 2) true) := by
    cases c with
    | base64 =>
      exact Base64.validateLoop_eq t.length initial
        (by simp only [initial, List.length_nil]; omega) (by decide) (.inl rfl)
    | base64Url =>
      exact Base64Url.validateLoop_eq Base64Url.DecodeState.initial
        (by simp only [Base64Url.DecodeState.initial, List.length_nil]; omega) (by decide)
  rw [hverdict]
  cases hcontent : c.dialect.content (c.dialect.marks t) with
  | none =>
    refine verdict_of_ne fun hdone => ?_
    rw [content_of_done hdecoded hdone] at hcontent
    cases hcontent
  | some bytes =>
    have hlength := c.dialect.length_le_of_spells (c.dialect.content_eq_some.mp hcontent)
    have hmarks := c.dialect.length_marks_le t
    rw [eq_of_content hdecoded hcontent (by omega)]
    rfl

theorem getMaxDecodedLength_eq (c : Codec) {n : ℕ} (h : n < 2 ^ 31) :
    c.getMaxDecodedLength n = pure (c.dialect.capacity n : ℤ) := by
  have hnonneg : ¬(n : ℤ) < 0 := by omega
  cases c with
  | base64 =>
    simp only [Codec.getMaxDecodedLength, Base64.getMaxDecodedLength,
      Base64.getMaxDecodedFromUtf8Length, if_neg hnonneg]
    rw [Int.tdiv_eq_ediv_of_nonneg (by omega), Run.signed_eq_pure (by decide) (by omega) (by omega)]
    rfl
  | base64Url =>
    have hcapacity : Codec.base64Url.dialect.capacity n = n * 3 / 4 := rfl
    simp only [Codec.getMaxDecodedLength, getMaxDecodedLength, if_neg hnonneg]
    rw [Int.tdiv_eq_ediv_of_nonneg (by omega), Int.tmod_eq_emod_of_nonneg (by omega),
      Run.signed_eq_pure (by decide) (by omega) (by omega), pure_bind,
      Run.signed_eq_pure (by decide) (by split <;> omega) (by split <;> omega)]
    congr 1
    split <;> omega

/-- **The validators agree with the decoders.**  For a text whose length is an `int`, a destination
of the maximal decoded length is never too small, the validator accepts exactly when the final
block is done there, and then it reports the number of bytes written. -/
theorem isValid_iff_decode (c : Codec) (t : List UInt8) (h : t.length < 2 ^ 31) :
    ∃ max : ℕ, c.getMaxDecodedLength t.length = pure (max : ℤ) ∧
      ∀ dstLen, max ≤ dstLen →
        (∀ n, c.isValid t = (true, n) ↔ (c.decode t dstLen true).status = .done ∧
          (c.decode t dstLen true).written = n) ∧
        ((c.isValid t).1 = true ↔ (c.decode t dstLen true).status = .done) ∧
        ((c.isValid t).1 = true → (c.decode t dstLen true).dst.length = (c.isValid t).2 ∧
          (c.isValid t).2 ≤ max) ∧
        ∀ isFinalBlock, (c.decode t dstLen isFinalBlock).status ≠ .destinationTooSmall := by
  refine ⟨c.dialect.capacity t.length, getMaxDecodedLength_eq c h, fun dstLen hspace => ?_⟩
  have hdecoded := decoded c t dstLen true
  have hroom : ∀ isFinalBlock,
      (c.decode t dstLen isFinalBlock).status ≠ .destinationTooSmall := by
    intro isFinalBlock hsmall
    have hlt := (decoded c t dstLen isFinalBlock).tooSmall hsmall
    have hmono := c.dialect.capacity_mono (c.dialect.length_marks_le t)
    omega
  rw [isValid_eq]
  cases hcontent : c.dialect.content (c.dialect.marks t) with
  | none =>
    have hnot : (c.decode t dstLen true).status ≠ .done := fun hdone => by
      rw [content_of_done hdecoded hdone] at hcontent
      cases hcontent
    grind
  | some bytes =>
    have hlength := c.dialect.length_le_capacity hcontent
    have hdecode := eq_of_content hdecoded hcontent (hlength.trans hspace)
    refine ⟨fun n => ?_, ?_, fun _ => ⟨?_, hlength⟩, hroom⟩
    · rw [hdecode]
      simp
    · rw [hdecode]
      simp
    · rw [hdecode]

/-- The text `QUI= `, whose capacity is three bytes, stands for two. -/
theorem isValid_iff_decode_padded :
    ∃ max : ℕ, Codec.base64.getMaxDecodedLength [81, 85, 73, 61, 32].length = pure (max : ℤ) ∧
      ∀ dstLen, max ≤ dstLen →
        (∀ n, Codec.base64.isValid [81, 85, 73, 61, 32] = (true, n) ↔
          (Codec.base64.decode [81, 85, 73, 61, 32] dstLen true).status = .done ∧
          (Codec.base64.decode [81, 85, 73, 61, 32] dstLen true).written = n) ∧
        ((Codec.base64.isValid [81, 85, 73, 61, 32]).1 = true ↔
          (Codec.base64.decode [81, 85, 73, 61, 32] dstLen true).status = .done) ∧
        ((Codec.base64.isValid [81, 85, 73, 61, 32]).1 = true →
          (Codec.base64.decode [81, 85, 73, 61, 32] dstLen true).dst.length =
            (Codec.base64.isValid [81, 85, 73, 61, 32]).2 ∧
          (Codec.base64.isValid [81, 85, 73, 61, 32]).2 ≤ max) ∧
        ∀ isFinalBlock, (Codec.base64.decode [81, 85, 73, 61, 32] dstLen isFinalBlock).status ≠
          .destinationTooSmall :=
  isValid_iff_decode .base64 [81, 85, 73, 61, 32] (by decide)

end SharpRuntime.Analysis.Base64Validation
