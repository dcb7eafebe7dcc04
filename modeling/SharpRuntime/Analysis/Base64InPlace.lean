import SharpRuntime.Analysis.Base64RoundTrip
import SharpRuntime.Machine.Tape

/-!
# Transforms in place

A buffer that is text and destination at once is the original with the bytes stored so far laid
over its front.  The encoders lay the last group first, and no group is laid over one that is
still to be read (`encodeGroupsInPlace_eq`).  The decoders store fewer bytes than they have read
characters, so what is left to read is what it was (`decodeLoopInPlace_eq`).
-/

set_option autoImplicit false

namespace SharpRuntime.Analysis.Base64InPlace

open Machine Machine.Sextets
open Model Interface
open Base64RoundTrip
open Base64Url
open Base64.DecodeState

variable {buf bytes : List UInt8} {offset : ℕ}

theorem store_eq (h : offset + bytes.length ≤ buf.length) :
    Base64.store buf offset bytes = overlay buf offset bytes := by
  induction bytes generalizing buf offset with
  | nil =>
    rw [Base64.store, overlay, zeroPadded_of_le (by simpa using h)]
    simp
  | cons c bytes ih =>
    rw [List.length_cons] at h
    have hset : buf.set offset c = overlay buf offset [c] := by
      rw [overlay, zeroPadded_of_le (by omega), List.set_eq_take_append_cons_drop,
        if_pos (by omega)]
      rfl
    rw [Base64.store, ih (by rw [List.length_set]; omega), hset]
    exact overlay_append buf offset [c] bytes

theorem length_overlay_of_le
    (h : offset + bytes.length ≤ buf.length) : (overlay buf offset bytes).length = buf.length := by
  rw [length_overlay]
  omega

variable {n : ℕ}

theorem take_overlay (bytes : List UInt8) (hn : n ≤ offset)
    (h : offset ≤ buf.length) : (overlay buf offset bytes).take n = buf.take n := by
  grind [overlay, zeroPadded_of_le]

theorem overlay_zero (buf bytes : List UInt8) :
    overlay buf 0 bytes = bytes ++ buf.drop bytes.length := by
  rw [overlay, zeroPadded_of_le (Nat.zero_le _), List.take_zero, List.nil_append, Nat.zero_add]

theorem getD_drop (s : List UInt8) (n i : ℕ) : (s.drop n).getD i 0 = s.getD (n + i) 0 := by
  rw [List.getD_eq_getElem?_getD, List.getD_eq_getElem?_getD, List.getElem?_drop]

theorem drop_take_three {s : List UInt8} (h : n + 3 ≤ s.length) :
    (s.drop n).take 3 = [s.getD n 0, s.getD (n + 1) 0, s.getD (n + 2) 0] := by
  have hcons : ∀ m < s.length, s.drop m = s.getD m 0 :: s.drop (m + 1) := by
    intro m hm
    rw [List.drop_eq_getElem_cons hm, List.getD_eq_getElem _ _ hm]
  grind

/-- From the last group down, no group is overwritten before it is read. -/
theorem encodeGroupsInPlace_eq (kEncTable : List UInt8) {fullGroups : ℕ}
    (h : fullGroups * 4 ≤ buf.length) :
    Base64.encodeGroupsInPlace kEncTable fullGroups buf =
      overlay buf 0
        ((sextets (buf.take (fullGroups * 3))).map (tableLetter kEncTable)) := by
  induction fullGroups generalizing buf with
  | zero =>
    rw [Nat.zero_mul, List.take_zero, overlay_zero]
    rfl
  | succ i ih =>
    have hgroup := drop_take_three (s := buf) (n := i * 3) (by omega)
    obtain ⟨h₀, h₁, h₂, h₃⟩ := letterAt_or kEncTable (buf.getD (i * 3) 0) (buf.getD (i * 3 + 1) 0)
      (buf.getD (i * 3 + 2) 0)
    rw [Base64.encodeGroupsInPlace]
    simp only [h₀, h₁, h₂, h₃]
    obtain ⟨last, hlast⟩ : ∃ last, last = [tableLetter kEncTable (sextet₀ (buf.getD (i * 3) 0)),
      tableLetter kEncTable (sextet₁ (buf.getD (i * 3) 0) (buf.getD (i * 3 + 1) 0)),
      tableLetter kEncTable (sextet₂ (buf.getD (i * 3 + 1) 0) (buf.getD (i * 3 + 2) 0)),
      tableLetter kEncTable (sextet₃ (buf.getD (i * 3 + 2) 0))] := ⟨_, rfl⟩
    have hfour : last.length = 4 := by rw [hlast]; rfl
    rw [← hlast, store_eq (by omega), ih (by rw [length_overlay_of_le] <;> omega),
      take_overlay last (by omega) (by omega)]
    have hwhole : (buf.take (i * 3)).length % 3 = 0 := by
      rw [List.length_take]
      omega
    have hsplit : buf.take ((i + 1) * 3) = buf.take (i * 3) ++ (buf.drop (i * 3)).take 3 := by grind
    have hfront : ((sextets (buf.take (i * 3))).map (tableLetter kEncTable)).length = i * 4 := by
      grind [length_sextets]
    have hletters : (sextets ((buf.drop (i * 3)).take 3)).map (tableLetter kEncTable) = last := by
      rw [hgroup, hlast]
      rfl
    rw [hsplit, sextets_append hwhole, List.map_append, hletters]
    have hbefore := overlay_before (Nat.zero_le buf.length)
      ((sextets (buf.take (i * 3))).map (tableLetter kEncTable)) last
    rwa [hfront, Nat.zero_add] at hbefore

def lastPack : Codec → (fullGroups remainder : ℕ) → (buf : List UInt8) → List UInt8
  | .base64 => Base64.encodeLastPack
  | .base64Url => encodeLastPack

def kEncTable : Codec → List UInt8
  | .base64 => Base64.kEncTable
  | .base64Url => Base64Url.kEncTable

variable (c : Codec) (dstLen : ℕ) (isFinalBlock : Bool)

theorem letters_eq (sexts : List (Fin 64)) :
    c.dialect.letters sexts = sexts.map (tableLetter (kEncTable c)) := by
  cases c <;> rfl

theorem drop_groups (buf : List UInt8) (n : ℕ) :
    (buf.take n).drop (n / 3 * 3) = ((buf.drop (n / 3 * 3)).take (n % 3)) := by
  rw [List.drop_take]
  congr 1
  omega

theorem lastPack_eq (h : (c.spelling (buf.take n)).length ≤ buf.length) (hn : n ≤ buf.length) :
    lastPack c (n / 3) (n % 3) buf =
      overlay buf (n / 3 * 4) (c.spelling ((buf.take n).drop (n / 3 * 3))) := by
  have hwhole : ((buf.take n).take (n / 3 * 3)).length % 3 = 0 := by grind
  have hspace : n / 3 * 4 + (c.spelling ((buf.take n).drop (n / 3 * 3))).length ≤ buf.length := by
    have hsplit := spelling_append c hwhole ((buf.take n).drop (n / 3 * 3))
    rw [List.take_append_drop] at hsplit
    rw [hsplit, List.length_append, Dialect.length_letters, length_sextets, List.length_take,
      List.length_take] at h
    omega
  rw [drop_groups] at hspace ⊢
  have hcons : ∀ m < buf.length, buf.drop m = buf.getD m 0 :: buf.drop (m + 1) := by
    intro m hm
    rw [List.drop_eq_getElem_cons hm, List.getD_eq_getElem _ _ hm]
  have hcases : n % 3 = 0 ∨ n % 3 = 1 ∨ n % 3 = 2 := by omega
  rcases hcases with hr | hr | hr
  · have hnil : c.spelling [] = [] := by cases c <;> rfl
    rw [hr, List.take_zero, hnil, overlay, zeroPadded_of_le (by omega)]
    have hsame : lastPack c (n / 3) 0 buf = buf := by cases c <;> rfl
    rw [hsame, List.nil_append, List.length_nil, Nat.add_zero, List.take_append_drop]
  · obtain ⟨h₀, h₁, -⟩ := letterAt_or (kEncTable c) (buf.getD (n / 3 * 3) 0) 0 0
    simp only [UInt8.toNat_zero, Nat.zero_shiftLeft, Nat.or_zero] at h₀ h₁
    have hone : (buf.drop (n / 3 * 3)).take (n % 3) = [buf.getD (n / 3 * 3) 0] := by
      rw [hcons _ (by omega), hr]
      rfl
    rw [hone] at hspace ⊢
    rw [← store_eq hspace, hr]
    cases c with
    | base64 =>
      exact congrArg₂ (fun x y => Base64.store buf _ [x, y, _, _]) h₀ h₁
    | base64Url =>
      exact congrArg₂ (fun x y => Base64.store buf _ [x, y]) h₀ h₁
  · obtain ⟨h₀, h₁, h₂, -⟩ := letterAt_or (kEncTable c) (buf.getD (n / 3 * 3) 0)
      (buf.getD (n / 3 * 3 + 1) 0) 0
    simp only [UInt8.toNat_zero, Nat.or_zero] at h₀ h₁ h₂
    have htwo : (buf.drop (n / 3 * 3)).take (n % 3) =
        [buf.getD (n / 3 * 3) 0, buf.getD (n / 3 * 3 + 1) 0] := by grind
    rw [htwo] at hspace ⊢
    rw [← store_eq hspace, hr]
    cases c with
    | base64 =>
      rw [lastPack, Base64.encodeLastPack, if_neg (by decide), if_pos rfl]
      simp only [kEncTable] at h₀ h₁ h₂
      simp only [h₀, h₁, h₂]
      rfl
    | base64Url =>
      rw [lastPack, Base64Url.encodeLastPack, if_neg (by decide), if_pos rfl]
      simp only [kEncTable] at h₀ h₁ h₂
      simp only [h₀, h₁, h₂]
      rfl

theorem encodePacks_eq (h : (c.spelling (buf.take n)).length ≤ buf.length) (hn : n ≤ buf.length) :
    Base64.encodeGroupsInPlace (kEncTable c) (n / 3) (lastPack c (n / 3) (n % 3) buf) =
      overlay buf 0 (c.spelling (buf.take n)) := by
  have hwhole : ((buf.take n).take (n / 3 * 3)).length % 3 = 0 := by grind
  have hsplit := spelling_append c hwhole ((buf.take n).drop (n / 3 * 3))
  rw [List.take_append_drop, letters_eq, List.take_take, Nat.min_eq_left (by omega)] at hsplit
  have hfront : ((sextets (buf.take (n / 3 * 3))).map (tableLetter (kEncTable c))).length =
      n / 3 * 4 := by grind [length_sextets]
  have hspace : n / 3 * 4 + (c.spelling ((buf.take n).drop (n / 3 * 3))).length ≤ buf.length := by
    grind
  rw [lastPack_eq c h hn, encodeGroupsInPlace_eq _ (by rw [length_overlay_of_le hspace]; omega),
    take_overlay _ (by omega) (by omega), hsplit]
  have hbefore := overlay_before (Nat.zero_le buf.length)
    ((sextets (buf.take (n / 3 * 3))).map (tableLetter (kEncTable c)))
    (c.spelling ((buf.take n).drop (n / 3 * 3)))
  rwa [hfront, Nat.zero_add] at hbefore

section Reading

variable {orig dst bytes : List UInt8} {n : ℕ}

theorem drop_overlay_zero (h : dst.length ≤ n) : (overlay orig 0 dst).drop n = orig.drop n := by
  rw [overlay_zero, List.drop_append, List.drop_eq_nil_of_le h, List.nil_append, List.drop_drop]
  congr 1
  omega

theorem getD_overlay_zero {ch : UInt8} {src : List UInt8} (h : dst.length ≤ n)
    (hsrc : orig.drop n = ch :: src) : (overlay orig 0 dst).getD n 0 = ch := by
  have hread := getD_drop (overlay orig 0 dst) n 0
  rw [drop_overlay_zero h, hsrc] at hread
  exact hread.symm

theorem store_overlay_zero (h : dst.length + bytes.length ≤ orig.length) :
    Base64.store (overlay orig 0 dst) dst.length bytes = overlay orig 0 (dst ++ bytes) := by
  have hlength : (overlay orig 0 dst).length = orig.length := length_overlay_of_le (by omega)
  have happend := overlay_append orig 0 dst bytes
  rw [Nat.zero_add] at happend
  rw [store_eq (by omega), happend]

end Reading

/-- What has been read of the text is more than what has been stored. -/
structure Ahead (orig : List UInt8) (si valCount : ℕ) (dst src : List UInt8) : Prop where
  rest : orig.drop si = src
  end_eq : si + src.length = orig.length
  stored : dst.length + valCount ≤ si

namespace Ahead

variable {orig dst src bytes : List UInt8} {si valCount : ℕ} {ch : UInt8}

theorem read (h : Ahead orig si valCount dst (ch :: src)) :
    (overlay orig 0 dst).getD si 0 = ch :=
  getD_overlay_zero (by have := h.stored; omega) h.rest

theorem step {valCount' : ℕ} (h : Ahead orig si valCount dst (ch :: src))
    (hcount : valCount' ≤ valCount + 1) : Ahead orig (si + 1) valCount' dst src where
  rest := by rw [← List.drop_drop, h.rest, List.drop_one, List.tail_cons]
  end_eq := by
    have := h.end_eq
    rw [List.length_cons] at this
    omega
  stored := by
    have := h.stored
    omega

theorem commit (h : Ahead orig si valCount dst src) (hbytes : bytes.length ≤ valCount) :
    Ahead orig si 0 (dst ++ bytes) src where
  rest := h.rest
  end_eq := h.end_eq
  stored := by
    have := h.stored
    rw [List.length_append]
    omega

theorem store_eq (h : Ahead orig si valCount dst src) (hbytes : bytes.length ≤ valCount) :
    Base64.store (overlay orig 0 dst) dst.length bytes = overlay orig 0 (dst ++ bytes) := by
  have hend := h.end_eq
  have hstored := h.stored
  exact store_overlay_zero (by omega)

theorem drop_overlay (h : Ahead orig si valCount dst src) : (overlay orig 0 dst).drop si = src := by
  have hstored := h.stored
  rw [drop_overlay_zero (by omega), h.rest]

end Ahead

theorem dst_mark (st : Base64.DecodeState) : st.mark.dst = st.dst := by
  rw [mark]
  split <;> rfl

theorem si_mark (st : Base64.DecodeState) : st.mark.si = st.si := by
  rw [mark]
  split <;> rfl

variable {st : Base64.DecodeState}

theorem takeSymbol_some {isFinalBlock : Bool} {v : ℤ} {st' : Base64.DecodeState}
    (h : Base64.takeSymbol isFinalBlock v st = some st') :
    st'.dst = st.dst ∧ st'.si = st.si + 1 ∧ st'.valCount = st.valCount + 1 := by
  rw [Base64.takeSymbol] at h
  simp only [Option.ite_none_left_eq_some] at h
  obtain ⟨-, h⟩ := h
  split at h
  · simp only [Option.ite_none_left_eq_some, Option.some.injEq] at h
    obtain ⟨-, -, rfl⟩ := h
    exact ⟨rfl, rfl, rfl⟩
  · simp only [Option.ite_none_left_eq_some, Option.some.injEq] at h
    obtain ⟨-, rfl⟩ := h
    exact ⟨rfl, rfl, rfl⟩

theorem length_quantumBytes {dstLen : ℕ}
    (h : Base64.quantumBytes dstLen st = .ok bytes) : bytes.length ≤ 3 := by
  rw [Base64.quantumBytes] at h
  split_ifs at h <;> cases h <;> simp

variable {orig src : List UInt8}

/-- What is written stays behind what has been read. -/
theorem decodeLoopInPlace_eq (srcLen dstLen : ℕ) (isFinalBlock : Bool)
    (h : Ahead orig st.si st.valCount st.dst src) :
    Base64.decodeLoopInPlace srcLen dstLen isFinalBlock src.length st (overlay orig 0 st.dst) =
      (Base64.decodeLoop srcLen dstLen isFinalBlock st src,
        overlay orig 0 (Base64.decodeLoop srcLen dstLen isFinalBlock st src).dst) := by
  induction src generalizing st with
  | nil =>
    have hdst : (Base64.endOfText isFinalBlock st).dst = st.dst := by
      rw [Base64.endOfText]
      split_ifs <;> rfl
    rw [Base64.decodeLoop, hdst]
    rfl
  | cons ch src ih =>
    rw [List.length_cons, Base64.decodeLoopInPlace, Base64.decodeLoop, h.read]
    by_cases hblank : Base64.isWhitespace ch
    · rw [if_pos hblank, if_pos hblank]
      exact @ih { st with si := st.si + 1 } (h.step (Nat.le_succ _))
    · rw [if_neg hblank, if_neg hblank]
      cases htake : Base64.takeSymbol isFinalBlock (Base64.kDecTable.getD ch.toNat (-1)) st.mark with
      | none =>
        rw [fail, dst_mark]
      | some st' =>
        obtain ⟨hdst, hsi, hcount⟩ := takeSymbol_some htake
        rw [dst_mark] at hdst
        rw [si_mark] at hsi
        rw [Base64Decoding.Reading.valCount_mark] at hcount
        have hnext : Ahead orig st'.si st'.valCount st'.dst src := by
          rw [hsi, hdst, hcount]
          exact h.step le_rfl
        dsimp only
        rw [← hdst]
        by_cases hfour : st'.valCount = 4
        · rw [if_pos hfour, if_pos hfour]
          cases hquantum : Base64.quantumBytes dstLen st' with
          | error status => rfl
          | ok bytes =>
            have hbytes : bytes.length ≤ st'.valCount := by
              have := length_quantumBytes hquantum
              omega
            have hcommit := hnext.commit hbytes
            dsimp only
            rw [hnext.store_eq hbytes, hcommit.drop_overlay]
            by_cases hpad : st'.padCount > 0
            · rw [if_pos hpad, if_pos hpad]
              have hafter : (Base64.afterPadding srcLen (st'.commit bytes) src).dst =
                  st'.dst ++ bytes := by
                rw [Base64.afterPadding]
                split_ifs <;> rfl
              rw [hafter]
            · rw [if_neg hpad, if_neg hpad]
              exact @ih { st'.commit bytes with valCount := 0, padCount := 0 } hcommit
        · grind

theorem url_dst_mark (st : DecodeState) : st.mark.dst = st.dst := by
  rw [DecodeState.mark]
  split <;> rfl

theorem url_si_mark (st : DecodeState) : st.mark.si = st.si := by
  rw [DecodeState.mark]
  split <;> rfl

theorem url_valCount_mark (st : DecodeState) : st.mark.valCount = st.valCount := by
  rw [DecodeState.mark]
  split <;> rfl

theorem exists_endOfText (st : DecodeState) :
    ∃ bytes, (endOfText dstLen isFinalBlock st).dst = st.dst ++ bytes ∧
      bytes.length ≤ st.valCount := by
  rw [endOfText]
  split_ifs
  case pos => exact ⟨[], (List.append_nil _).symm, Nat.zero_le _⟩
  case pos => exact ⟨[], (List.append_nil _).symm, Nat.zero_le _⟩
  case pos => exact ⟨[], (List.append_nil _).symm, Nat.zero_le _⟩
  case pos => exact ⟨[], (List.append_nil _).symm, Nat.zero_le _⟩
  case neg => exact ⟨_, rfl, by simp only [List.length_singleton]; omega⟩
  case pos => exact ⟨[], (List.append_nil _).symm, Nat.zero_le _⟩
  case pos => exact ⟨[], (List.append_nil _).symm, Nat.zero_le _⟩
  case neg => exact ⟨_, rfl, by simp only [List.length_cons, List.length_nil]; omega⟩
  case neg => exact ⟨[], (List.append_nil _).symm, Nat.zero_le _⟩

theorem storeLast_eq {st st' : DecodeState} (h : Ahead orig st.si st.valCount st.dst src)
    (hdst : st'.dst = st.dst)
    (hcount : st'.valCount = st.valCount) :
    storeLast st (endOfText dstLen isFinalBlock st') (overlay orig 0 st.dst) =
      (endOfText dstLen isFinalBlock st',
        overlay orig 0 (endOfText dstLen isFinalBlock st').dst) := by
  obtain ⟨bytes, hbytes, hlength⟩ := exists_endOfText dstLen isFinalBlock st'
  rw [hdst] at hbytes
  rw [hcount] at hlength
  rw [storeLast, hbytes, List.drop_left, h.store_eq hlength]

theorem url_decodeLoopInPlace_eq
    {st : DecodeState} (h : Ahead orig st.si st.valCount st.dst src) :
    decodeLoopInPlace dstLen isFinalBlock src.length st (overlay orig 0 st.dst) =
      (decodeLoop dstLen isFinalBlock st src,
        overlay orig 0 (decodeLoop dstLen isFinalBlock st src).dst) := by
  induction src generalizing st with
  | nil => exact storeLast_eq dstLen isFinalBlock h rfl rfl
  | cons ch src ih =>
    rw [List.length_cons, decodeLoopInPlace, decodeLoop, h.read]
    dsimp -proj only
    by_cases hblank : isWhitespace ch
    · rw [if_pos hblank, if_pos hblank]
      exact @ih { st with si := st.si + 1 } (h.step (Nat.le_succ _))
    · rw [if_neg hblank, if_neg hblank, ← url_dst_mark st]
      have hmark : Ahead orig st.mark.si st.mark.valCount st.mark.dst (ch :: src) := by
        rw [url_si_mark, url_valCount_mark, url_dst_mark]
        exact h
      by_cases hpadding : isPadding ch
      · rw [if_pos hpadding, if_pos hpadding]
        by_cases hfinal : (!isFinalBlock) = true
        · rw [if_pos hfinal, if_pos hfinal]
          rfl
        · rw [if_neg hfinal, if_neg hfinal]
          by_cases htwo : st.mark.valCount < 2
          · rw [if_pos htwo, if_pos htwo]
            rfl
          · have hlength : (overlay orig 0 st.mark.dst).length =
                st.mark.si + (ch :: src).length := by
              have hend := hmark.end_eq
              have hstored := hmark.stored
              rw [length_overlay_of_le (by omega), hend]
            rw [if_neg htwo, if_neg htwo, hmark.drop_overlay, hlength]
            cases countPadding 0 (ch :: src) with
            | none => rfl
            | some padCount =>
              dsimp only
              by_cases hfull : st.mark.valCount + padCount > 4
              · rw [if_pos hfull, if_pos hfull]
                rfl
              · grind [storeLast_eq]
      · rw [if_neg hpadding, if_neg hpadding]
        by_cases hinvalid : kDecTable.getD ch.toNat (-1) < 0
        · rw [if_pos hinvalid, if_pos hinvalid]
          rfl
        · rw [if_neg hinvalid, if_neg hinvalid]
          obtain ⟨st', hst'⟩ : ∃ st', st' =
              { st.mark.push (kDecTable.getD ch.toNat (-1)).toNat with
                si := st.mark.si + 1 } := ⟨_, rfl⟩
          have hdst : st.mark.dst = st'.dst := by rw [hst']; rfl
          have hnext : Ahead orig st'.si st'.valCount st'.dst src := by
            rw [hst']
            exact hmark.step le_rfl
          rw [← hst', hdst]
          by_cases hfour : st'.valCount = 4
          · rw [if_pos hfour, if_pos hfour]
            by_cases hspace : dstLen - st'.dst.length < 3
            · rw [if_pos hspace, if_pos hspace]
              rfl
            · rw [if_neg hspace, if_neg hspace]
              obtain ⟨bytes, hbytes⟩ : ∃ bytes, bytes = [
                  UInt8.ofNat ((st'.vals 0 <<< 18 ||| st'.vals 1 <<< 12 ||| st'.vals 2 <<< 6 |||
                    st'.vals 3) >>> 16),
                  UInt8.ofNat ((st'.vals 0 <<< 18 ||| st'.vals 1 <<< 12 ||| st'.vals 2 <<< 6 |||
                    st'.vals 3) >>> 8),
                  UInt8.ofNat (st'.vals 0 <<< 18 ||| st'.vals 1 <<< 12 ||| st'.vals 2 <<< 6 |||
                    st'.vals 3)] := ⟨_, rfl⟩
              have hthree : bytes.length ≤ st'.valCount := by
                rw [hbytes, hfour]
                simp
              rw [← hbytes, hnext.store_eq hthree]
              exact @ih (st'.commit bytes) (hnext.commit hthree)
          · grind

/-- An encoder in place: it leaves the encoding of the first bytes in the front of the buffer and
changes nothing behind it, or does not fit and changes nothing. -/
def EncodesInPlace {α : Type} (c : Codec) (buffer : List UInt8) (dataLength : ℤ) (done tooSmall : α)
    (r : Run Exception (α × ℤ × List UInt8)) : Prop :=
  ∃ encodedLen : ℕ, c.getEncodedLength dataLength = pure (encodedLen : ℤ) ∧
    (encodedLen ≤ buffer.length → ∃ t, c.encode (buffer.take dataLength.toNat) encodedLen true = t ∧
      t.status = .done ∧ t.dst.length = encodedLen ∧ dataLength ≤ buffer.length ∧
      r = pure (done, (encodedLen : ℤ), t.dst ++ buffer.drop encodedLen)) ∧
    (buffer.length < encodedLen → r = pure (tooSmall, 0, buffer))

theorem length_spelling_congr {a b : List UInt8} (h : a.length = b.length) :
    (c.spelling a).length = (c.spelling b).length := by
  cases c with
  | base64 => rw [length_spelling_base64, length_spelling_base64, h]
  | base64Url => rw [length_spelling_base64Url, length_spelling_base64Url, h]

theorem length_le_spelling (bytes : List UInt8) : bytes.length ≤ (c.spelling bytes).length := by
  cases c with
  | base64 =>
    rw [length_spelling_base64]
    omega
  | base64Url =>
    rw [length_spelling_base64Url]
    omega

theorem encodesInPlace {α : Type} (buffer : List UInt8) (hn : n ≤ 1610612733)
    (done tooSmall : α) {r : Run Exception (α × ℤ × List UInt8)}
    (hr : r = do
      let encodedLen ← c.getEncodedLength n
      if encodedLen > buffer.length then pure (tooSmall, 0, buffer)
      else pure (done, encodedLen, Base64.encodeGroupsInPlace (kEncTable c) (n / 3)
        (lastPack c (n / 3) (n % 3) buffer))) :
    EncodesInPlace c buffer n done tooSmall r := by
  obtain ⟨blank, hblank⟩ : ∃ blank : List UInt8, blank.length = n :=
    ⟨List.replicate n 0, List.length_replicate⟩
  have hlength := getEncodedLength_eq c (hblank.trans_le hn)
  rw [hblank] at hlength
  rw [hlength, pure_bind] at hr
  refine ⟨_, hlength, fun hfits => ?_, fun hsmall => ?_⟩
  · have hle : n ≤ buffer.length := by
      have := length_le_spelling c blank
      omega
    have htake : (c.spelling (buffer.take n)).length = (c.spelling blank).length :=
      length_spelling_congr c (by rw [List.length_take, hblank, Nat.min_eq_left hle])
    refine ⟨_, rfl, ?_⟩
    rw [Int.toNat_natCast, encode_eq c (buffer.take n) htake.le]
    refine ⟨rfl, htake, by exact_mod_cast hle, ?_⟩
    rw [hr, if_neg (by omega), encodePacks_eq c (by omega) hle, overlay_zero, htake]
  · rw [hr, if_pos (by omega)]

/-- **Transforms in place are those out of place.**  In a buffer that is not empty, with a length
that has an encoded length, the encoders leave the encoding of the original bytes in the front and
every other byte as it was, or report that it does not fit and change nothing.  The decoders end
as they do on a copy, store the same bytes in the front, and change no other byte. -/
theorem inPlace_eq_outOfPlace {buffer : List UInt8} (hbuffer : buffer ≠ []) {dataLength : ℤ}
    (hlow : 0 ≤ dataLength) (hhigh : dataLength ≤ 1610612733) :
    EncodesInPlace .base64 buffer dataLength .done .destinationTooSmall
        (Base64.encodeToUtf8InPlace buffer dataLength) ∧
      EncodesInPlace .base64Url buffer dataLength true false
        (tryEncodeToUtf8InPlace buffer dataLength) ∧
      (∃ t, Base64.decodeFromUtf8 buffer buffer.length true = t ∧ t.written = t.dst.length ∧
        Base64.decodeFromUtf8InPlace buffer =
          (t.status, t.written, t.dst ++ buffer.drop t.dst.length)) ∧
      ∃ t, decodeFromUtf8 buffer buffer.length true = t ∧ t.written = t.dst.length ∧
        decodeFromUtf8InPlace buffer =
          (if t.status = .invalidData then
            Run.throwing (.format invalidDataMessage) else pure t.written,
          t.dst ++ buffer.drop t.dst.length) := by
  obtain ⟨n, rfl⟩ := Int.eq_ofNat_of_zero_le hlow
  have hlength : buffer.length ≠ 0 := fun h => hbuffer (List.eq_nil_of_length_eq_zero h)
  have hdiv : ((n : ℤ).tdiv 3).toNat = n / 3 := by rfl
  have hmod : ((n : ℤ).tmod 3).toNat = n % 3 := by rfl
  have hinitial : buffer = overlay buffer 0 [] := (overlay_zero buffer []).symm
  refine ⟨encodesInPlace .base64 buffer (by omega) _ _ ?_,
    encodesInPlace .base64Url buffer (by omega) _ _ ?_, ⟨_, rfl, ?_, ?_⟩, ⟨_, rfl, ?_, ?_⟩⟩
  · rw [Base64.encodeToUtf8InPlace, if_neg hlength, hdiv, hmod]
    rfl
  · rw [Base64Url.tryEncodeToUtf8InPlace, if_neg hlength, hdiv, hmod]
    rfl
  · exact (decoded .base64 buffer buffer.length true).written
  · have hstart : Ahead buffer initial.si
        initial.valCount initial.dst buffer :=
      ⟨rfl, Nat.zero_add _, Nat.zero_le _⟩
    have hloop := decodeLoopInPlace_eq buffer.length buffer.length true hstart
    rw [show initial.dst = [] from rfl, ← hinitial, overlay_zero] at hloop
    rw [Base64.decodeFromUtf8InPlace]
    rw [hloop]
    rfl
  · exact (decoded .base64Url buffer buffer.length true).written
  · have hstart : Ahead buffer DecodeState.initial.si
        DecodeState.initial.valCount DecodeState.initial.dst buffer :=
      ⟨rfl, Nat.zero_add _, Nat.zero_le _⟩
    have hloop := url_decodeLoopInPlace_eq buffer.length true hstart
    rw [show DecodeState.initial.dst = [] from rfl, ← hinitial, overlay_zero] at hloop
    rw [decodeFromUtf8InPlace]
    rw [hloop]
    rfl

/-- Four bytes, three of which make a group, in a buffer of nine. -/
theorem inPlace_four :
    EncodesInPlace .base64 [65, 66, 67, 0, 1, 2, 3, 4, 5] 4 .done .destinationTooSmall
      (Base64.encodeToUtf8InPlace [65, 66, 67, 0, 1, 2, 3, 4, 5] 4) :=
  (inPlace_eq_outOfPlace (by decide) (by decide) (by decide)).1

end SharpRuntime.Analysis.Base64InPlace
