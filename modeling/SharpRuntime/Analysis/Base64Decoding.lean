import SharpRuntime.Interface.Base64Text

/-!
# The decoder of `Base64`

`decodeLoop` reads the text one character at a time.  `Reading` is its invariant: what has been
read is whole quanta, which stand for the bytes that have been stored, then the letters of the
pending quantum and its padding.  Every return of the loop is `Decoded`.
-/

set_option autoImplicit false
set_option maxRecDepth 20000

namespace SharpRuntime.Analysis.Base64Decoding

open Machine Machine.Sextets
open Model Interface
open Base64.DecodeState
open Dialect
open Base64

/-! ## Boundaries -/

section Boundaries

variable {D : Dialect UInt8} {t dst : List UInt8} {cursor dstLen : ℕ} {isFinalBlock : Bool}

theorem boundary_zero (D : Dialect UInt8) (t : List UInt8) : Boundary D t [] 0 :=
  ⟨Nat.zero_le _, rfl, by rw [List.take_zero]; rfl⟩

theorem content_of_boundary (h : Boundary D t dst cursor) :
    D.content (D.marks (t.take cursor)) = some dst := by
  rw [h.marks_take, D.content_sextets h.whole]

theorem decoded_invalidData (h : Boundary D t dst cursor) (hfits : dst.length ≤ dstLen)
    (hnone : isFinalBlock = true → D.content (D.marks t) = none) :
    Decoded D t dstLen isFinalBlock ⟨.invalidData, cursor, dst.length, dst⟩ where
  written := rfl
  fits := hfits
  le_length := h.le_length
  content_take := content_of_boundary h
  done := nofun
  needMoreData := nofun
  invalidData hfinal _ := hnone hfinal
  tooSmall := nofun
  tooSmall_of_content := nofun
  boundary := by rintro - (h | h) <;> cases h

theorem decoded_tooSmall {more : ℕ} (h : Boundary D t dst cursor) (hfits : dst.length ≤ dstLen)
    (hspace : dstLen - dst.length < more)
    (hcapacity : dst.length + more ≤ D.capacity (D.marks t).length)
    (hcontent : ∀ bytes, D.content (D.marks t) = some bytes → dst.length + more ≤ bytes.length) :
    Decoded D t dstLen isFinalBlock ⟨.destinationTooSmall, cursor, dst.length, dst⟩ where
  written := rfl
  fits := hfits
  le_length := h.le_length
  content_take := content_of_boundary h
  done := nofun
  needMoreData := nofun
  invalidData := nofun
  tooSmall _ := by omega
  tooSmall_of_content _ _ bytes hbytes := by
    have := hcontent bytes hbytes
    omega
  boundary := by rintro - (h | h) <;> cases h

theorem decoded_done (hfits : dst.length ≤ dstLen) (hcontent : D.content (D.marks t) = some dst)
    (hboundary : isFinalBlock = false → Boundary D t dst t.length) :
    Decoded D t dstLen isFinalBlock ⟨.done, t.length, dst.length, dst⟩ where
  written := rfl
  fits := hfits
  le_length := le_rfl
  content_take := by rwa [List.take_length]
  done _ := rfl
  needMoreData := nofun
  invalidData := nofun
  tooSmall := nofun
  tooSmall_of_content := nofun
  boundary hblock _ := hboundary hblock

theorem decoded_needMoreData (h : Boundary D t dst cursor) (hfits : dst.length ≤ dstLen)
    (hblock : isFinalBlock = false) :
    Decoded D t dstLen isFinalBlock ⟨.needMoreData, cursor, dst.length, dst⟩ where
  written := rfl
  fits := hfits
  le_length := h.le_length
  content_take := content_of_boundary h
  done := nofun
  needMoreData _ := hblock
  invalidData := nofun
  tooSmall := nofun
  tooSmall_of_content := nofun
  boundary _ _ := h

end Boundaries

/-! ## Characters -/

variable {c : UInt8}

variable {v : Fin 64}

theorem table_of_value {kDecTable : List ℤ}
    (h : ∀ c : UInt8, kDecTable.getD c.toNat (-1) < 64)
    (hv : tableValue kDecTable c = some v) :
    kDecTable.getD c.toNat (-1) = (v : ℕ) := by
  have hlt := h c
  simp only [tableValue, Option.ite_none_right_eq_some, Option.some.injEq] at hv
  obtain ⟨hnonneg, rfl⟩ := hv
  rw [Fin.val_ofNat]
  omega

theorem kDecTable_of_value (hv : base64Dialect.value c = some v) :
    kDecTable.getD c.toNat (-1) = (v : ℕ) :=
  table_of_value (by decide) hv

theorem kDecTable_of_isPad (hc : base64Dialect.isPad c = true) :
    kDecTable.getD c.toNat (-1) = -2 := by
  obtain rfl := eq_of_beq hc
  decide

theorem kDecTable_of_not (hv : base64Dialect.value c = none)
    (hc : base64Dialect.isPad c = false) : kDecTable.getD c.toNat (-1) = -1 := by
  revert c
  decide

/-! ## Quanta -/

section Quanta

variable {dstLen : ℕ} {st : DecodeState} {x y z w : Fin 64}

theorem quantumBytes_four (hpad : st.padCount = 0) (hx : st.vals 0 = x) (hy : st.vals 1 = y)
    (hz : st.vals 2 = z) (hw : st.vals 3 = w) :
    quantumBytes dstLen st =
      if dstLen - st.dst.length < 3 then .error .destinationTooSmall
      else .ok [octet₀ x y, octet₁ y z, octet₂ z w] := by
  simp only [quantumBytes, hpad, if_true, hx, hy, hz, hw, or_sextets, ofNat_pack_octet₀,
    ofNat_pack_octet₁, ofNat_pack_octet₂]

theorem quantumBytes_three (hpad : st.padCount = 1) (hx : st.vals 0 = x) (hy : st.vals 1 = y)
    (hz : st.vals 2 = z) :
    quantumBytes dstLen st =
      if (z : ℕ) % 4 ≠ 0 then .error .invalidData
      else if dstLen - st.dst.length < 2 then .error .destinationTooSmall
      else .ok [octet₀ x y, octet₁ y z] := by
  grind [quantumBytes, and_spare₂, or_sextets_three, ofNat_pack_octet₀, ofNat_pack_octet₁]

theorem quantumBytes_two (hpad : st.padCount = 2) (hx : st.vals 0 = x) (hy : st.vals 1 = y) :
    quantumBytes dstLen st =
      if (y : ℕ) % 16 ≠ 0 then .error .invalidData
      else if dstLen - st.dst.length < 1 then .error .destinationTooSmall
      else .ok [octet₀ x y] := by
  simp only [quantumBytes, hpad, OfNat.ofNat_ne_zero, OfNat.ofNat_ne_one, if_false, hx, hy,
    and_spare₁, or_sextets_two, ofNat_pack_octet₀]

end Quanta

/-! ## The invariant -/

/-- `pre` has been read and `src` is left: `pre` is whole quanta, which stand for the bytes stored,
the letters of `sexts`, and padding. -/
structure Reading (D : Dialect UInt8) (t pre src : List UInt8) (dstLen : ℕ)
    (st : DecodeState) (sexts : List (Fin 64)) : Prop where
  text : t = pre ++ src
  si : st.si = pre.length
  fits : st.dst.length ≤ dstLen
  written : st.written = st.dst.length
  whole : st.dst.length % 3 = 0
  read : D.marks pre = D.letters (sextets st.dst) ++
    (D.letters sexts ++ List.replicate st.padCount '='.toUInt8)
  consumed : Boundary D t st.dst st.consumed
  failCursor : 0 < st.valCount → Boundary D t st.dst st.failCursor
  valCount : st.valCount = sexts.length + st.padCount
  vals : ∀ i (h : i < sexts.length), st.vals i = sexts[i]
  padCount : 0 < st.padCount → 2 ≤ sexts.length

namespace Reading

variable {D : Dialect UInt8} {t pre src : List UInt8} {dstLen : ℕ} {st : DecodeState} {sexts : List (Fin 64)}

theorem initial (D : Dialect UInt8) (t : List UInt8) (dstLen : ℕ) :
    Reading D t [] t dstLen initial [] where
  text := rfl
  si := rfl
  fits := Nat.zero_le _
  written := rfl
  whole := rfl
  read := rfl
  consumed := boundary_zero _ _
  failCursor h := absurd h (Nat.lt_irrefl 0)
  valCount := rfl
  vals _ h := absurd h (Nat.not_lt_zero _)
  padCount h := absurd h (Nat.lt_irrefl 0)

theorem marks_text (h : Reading D t pre src dstLen st sexts) :
    D.marks t = D.letters (sextets st.dst) ++
      (D.letters sexts ++
        (List.replicate st.padCount '='.toUInt8 ++ D.marks src)) := by
  rw [h.text, marks_append, h.read]
  simp only [List.append_assoc]

theorem content_text (h : Reading D t pre src dstLen st sexts) :
    D.content (D.marks t) =
      (D.content (D.letters sexts ++
        (List.replicate st.padCount '='.toUInt8 ++ D.marks src))).map (st.dst ++ ·) := by
  rw [h.marks_text, content_append _ h.whole]

variable {ch : UInt8}

theorem blank (h : Reading D t pre (ch :: src) dstLen st sexts)
    (hch : D.isBlank ch = true) :
    Reading D t (pre ++ [ch]) src dstLen { st with si := st.si + 1 } sexts where
  text := by rw [h.text, List.append_assoc, List.singleton_append]
  si := by rw [h.si, List.length_append, List.length_singleton]
  fits := h.fits
  written := h.written
  whole := h.whole
  read := by
    rw [marks_append, marks_cons_of_isBlank _ hch, marks_nil,
      List.append_nil, h.read]
  consumed := h.consumed
  failCursor := h.failCursor
  valCount := h.valCount
  vals := h.vals
  padCount := h.padCount

theorem valCount_mark (st : DecodeState) : st.mark.valCount = st.valCount := by
  rw [mark]
  split <;> rfl

theorem mark (h : Reading D t pre src dstLen st sexts) :
    Reading D t pre src dstLen st.mark sexts ∧
      Boundary D t st.mark.dst st.mark.failCursor := by
  by_cases hcount : st.valCount = 0
  · have hsexts : sexts = [] := List.eq_nil_of_length_eq_zero (by have := h.valCount; omega)
    have hpad : st.padCount = 0 := by have := h.valCount; omega
    have hread := h.read
    rw [hsexts, hpad, letters_nil, List.replicate_zero, List.append_nil,
      List.append_nil] at hread
    have hboundary : Boundary D t st.dst st.si := by
      refine ⟨?_, h.whole, ?_⟩
      · rw [h.text, h.si, List.length_append]
        omega
      · rw [h.text, h.si, List.take_left, hread]
    rw [DecodeState.mark, if_pos hcount]
    exact ⟨{ h with failCursor := fun _ => hboundary }, hboundary⟩
  · rw [DecodeState.mark, if_neg hcount]
    exact ⟨h, h.failCursor (Nat.pos_of_ne_zero hcount)⟩

theorem letter {v : Fin 64} (h : Reading D t pre (ch :: src) dstLen st sexts)
    (hmark : Boundary D t st.dst st.failCursor)
    (hv : D.value ch = some v) (hpad : st.padCount = 0) :
    Reading D t (pre ++ [ch]) src dstLen ({ st with si := st.si + 1 }.push v) (sexts ++ [v]) where
  text := by rw [h.text, List.append_assoc, List.singleton_append]
  si := by
    rw [List.length_append, List.length_singleton, ← h.si]
    rfl
  fits := h.fits
  written := h.written
  whole := h.whole
  read := by
    have hread := h.read
    rw [marks_append, marks_cons _ (not_isBlank_of_value _ hv),
      marks_nil, hread, ← D.letter_of_value hv]
    simp [push, hpad, letters]
  consumed := h.consumed
  failCursor _ := hmark
  valCount := by
    have hcount := h.valCount
    simp [push]
    omega
  vals i hi := by
    have hcount : st.valCount = sexts.length := by rw [h.valCount, hpad, Nat.add_zero]
    simp only [push, hcount]
    rcases Nat.lt_or_ge i sexts.length with hlt | hge
    · rw [Function.update_of_ne hlt.ne, h.vals i hlt, List.getElem_append_left hlt]
    · obtain rfl : i = sexts.length := by grind
      simp
  padCount hpos := by
    have hpos' : 0 < st.padCount := hpos
    omega

theorem pad (h : Reading base64Dialect t pre (ch :: src) dstLen st sexts)
    (hmark : Boundary base64Dialect t st.dst st.failCursor)
    (hch : base64Dialect.isPad ch = true) (hcount : 2 ≤ sexts.length) :
    Reading base64Dialect t (pre ++ [ch]) src dstLen
      { { st with si := st.si + 1 }.push 0 with padCount := st.padCount + 1 } sexts where
  text := by rw [h.text, List.append_assoc, List.singleton_append]
  si := by
    rw [List.length_append, List.length_singleton, ← h.si]
    rfl
  fits := h.fits
  written := h.written
  whole := h.whole
  read := by
    have hblank := base64Dialect.not_isBlank_of_isPad hch
    obtain rfl := eq_of_beq hch
    rw [marks_append, marks_cons _ hblank, marks_nil, h.read,
      List.replicate_succ']
    simp only [List.append_assoc]
    rfl
  consumed := h.consumed
  failCursor _ := hmark
  valCount := by
    have hcount := h.valCount
    simp only [push]
    omega
  vals i hi := by
    have hlt : i < st.valCount := by
      rw [h.valCount]
      omega
    simp only [push]
    rw [Function.update_of_ne hlt.ne, h.vals i hi]
  padCount _ := hcount

/-! ### Texts that are rejected -/

theorem noLetterHead_pads {k : ℕ} {rest : List UInt8}
    (h : 0 < k ∨ base64Dialect.NoLetterHead rest) :
    base64Dialect.NoLetterHead (List.replicate k '='.toUInt8 ++ rest) := by
  cases k with
  | zero => simpa using h
  | succ k =>
    intro c hc
    obtain rfl : '='.toUInt8 = c := by simpa [List.replicate_succ] using hc
    exact base64Dialect.value_of_isPad rfl

theorem content_of_noLetterHead (h : Reading base64Dialect t pre src dstLen st sexts)
    (hhead : 0 < st.padCount ∨ base64Dialect.NoLetterHead (base64Dialect.marks src)) :
    base64Dialect.content (base64Dialect.marks t) =
      (if base64Dialect.padded sexts.length
          (List.replicate st.padCount '='.toUInt8 ++ base64Dialect.marks src) then octets sexts
        else none).map (st.dst ++ ·) := by
  rw [h.content_text, content_letters _ _ (noLetterHead_pads hhead)]

theorem content_eq_none (h : Reading base64Dialect t pre src dstLen st sexts)
    (hhead : 0 < st.padCount ∨ base64Dialect.NoLetterHead (base64Dialect.marks src))
    (hbad : base64Dialect.padded sexts.length
      (List.replicate st.padCount '='.toUInt8 ++ base64Dialect.marks src) = false ∨
      octets sexts = none) :
    base64Dialect.content (base64Dialect.marks t) = none := by grind [h.content_of_noLetterHead]

theorem padded_of_length_ne {n : ℕ} {pads : List UInt8} (h : pads.length ≠ vacant n) :
    base64Dialect.padded n pads = false := by
  have hfull : base64Dialect.padsFully = true := rfl
  simp [padded, hfull, h]

/-! ### Steps -/

variable {isFinalBlock : Bool}

theorem fail_invalidData (h : Reading D t pre src dstLen st sexts)
    (hmark : Boundary D t st.dst st.failCursor)
    (hnone : isFinalBlock = true → D.content (D.marks t) = none) :
    Decoded D t dstLen isFinalBlock (st.fail .invalidData) := by
  rw [fail, h.written]
  exact decoded_invalidData hmark h.fits hnone

theorem symbol_step (isFinalBlock : Bool) (h : Reading base64Dialect t pre (ch :: src) dstLen st sexts)
    (hmark : Boundary base64Dialect t st.dst st.failCursor)
    (hblank : isWhitespace ch = false) :
    (takeSymbol isFinalBlock (kDecTable.getD ch.toNat (-1)) st = none ∧
      Decoded base64Dialect t dstLen isFinalBlock (st.fail .invalidData)) ∨
    ∃ st' sexts', takeSymbol isFinalBlock (kDecTable.getD ch.toNat (-1)) st = some st' ∧
      Reading base64Dialect t (pre ++ [ch]) src dstLen st' sexts' ∧ st'.valCount = st.valCount + 1 ∧
      (0 < st'.padCount → isFinalBlock = true) := by
  have hmarks : base64Dialect.marks (ch :: src) = ch :: base64Dialect.marks src :=
    marks_cons _ hblank _
  cases hv : base64Dialect.value ch with
  | some v =>
    have hnotPad := base64Dialect.not_isPad_of_value hv
    have hne₁ : ((v : ℕ) : ℤ) ≠ -1 := by omega
    have hne₂ : ((v : ℕ) : ℤ) ≠ -2 := by omega
    rw [kDecTable_of_value hv, takeSymbol, if_neg hne₁, if_neg hne₂]
    by_cases hpad : 0 < st.padCount
    · left
      refine ⟨if_pos hpad, h.fail_invalidData hmark fun _ => h.content_eq_none (.inl hpad) (.inl ?_)⟩
      exact padded_of_mem _ (by rw [hmarks]; simp) hnotPad _
    · right
      refine ⟨_, _, if_neg hpad, h.letter hmark hv (Nat.eq_zero_of_not_pos hpad), rfl, ?_⟩
      exact fun hpos => absurd hpos hpad
  | none =>
    cases hpadding : base64Dialect.isPad ch with
    | false =>
      left
      rw [kDecTable_of_not hv hpadding, takeSymbol, if_pos rfl]
      refine ⟨rfl, h.fail_invalidData hmark fun _ => h.content_eq_none (.inr ?_) (.inl ?_)⟩
      · rw [hmarks]
        intro c hc
        obtain rfl : ch = c := by simpa using hc
        exact hv
      · exact padded_of_mem _ (by rw [hmarks]; simp) hpadding _
    | true =>
      rw [kDecTable_of_isPad hpadding, takeSymbol, if_neg (by decide), if_pos rfl]
      cases hblock : isFinalBlock with
      | false => exact .inl ⟨if_pos rfl, h.fail_invalidData hmark nofun⟩
      | true =>
        by_cases hcount : st.valCount < 2
        · -- A quantum of fewer than two letters cannot be padded.
          left
          refine ⟨if_pos hcount, h.fail_invalidData hmark fun _ =>
            h.content_eq_none (.inr ?_) ?_⟩
          · rw [hmarks]
            intro c hc
            obtain rfl : ch = c := by simpa using hc
            exact hv
          · have hlength := h.valCount
            match sexts, hlength with
            | [], _ =>
              left
              apply padded_of_lt
              rw [hmarks, List.length_append, List.length_cons]
              exact Nat.lt_of_lt_of_le (Nat.succ_pos _) (Nat.le_add_left _ _)
            | [_], _ => exact .inr rfl
            | _ :: _ :: _, hlength =>
              grind
        · right
          have hsexts : 2 ≤ sexts.length := by
            rcases Nat.eq_zero_or_pos st.padCount with hzero | hpos
            · have := h.valCount
              omega
            · exact h.padCount hpos
          exact ⟨_, _, if_neg hcount, h.pad hmark hpadding hsexts, rfl, fun _ => rfl⟩

theorem length_marks (h : Reading D t pre src dstLen st sexts) :
    (D.marks t).length =
      st.dst.length / 3 * 4 + st.valCount + (D.marks src).length := by
  have hwhole := h.whole
  simp [h.marks_text, h.valCount, length_letters, length_sextets]
  omega

theorem quantum {x y z w : Fin 64} (isFinalBlock : Bool)
    (h : Reading D t pre src dstLen st [x, y, z, w])
    (hmark : Boundary D t st.dst st.failCursor) (hpad : st.padCount = 0) :
    (dstLen - st.dst.length < 3 →
      Decoded D t dstLen isFinalBlock (st.fail .destinationTooSmall)) ∧
    (¬dstLen - st.dst.length < 3 → Reading D t pre src dstLen
      { st.commit [octet₀ x y, octet₁ y z, octet₂ z w] with valCount := 0, padCount := 0 } []) := by
  have hwhole := h.whole
  have hletters : [x, y, z, w] = sextets [octet₀ x y, octet₁ y z, octet₂ z w] := by
    rw [sextets_quantum, sextet₀_octet, sextet₁_octet, sextet₂_octet, sextet₃_octet]
    rfl
  constructor
  · intro hspace
    rw [fail, h.written]
    apply decoded_tooSmall hmark h.fits hspace
    · grind [h.valCount, capacity, h.length_marks]
    · intro bytes hbytes
      rw [h.content_text, hpad, hletters, content_append _ (by simp), Option.map_map] at hbytes
      obtain ⟨rest, -, rfl⟩ := Option.map_eq_some_iff.mp hbytes
      simp
  · intro hspace
    have hwhole' : (st.dst ++ [octet₀ x y, octet₁ y z, octet₂ z w]).length % 3 = 0 := by
      simp
      omega
    have hread : D.marks pre =
        D.letters (sextets (st.dst ++ [octet₀ x y, octet₁ y z, octet₂ z w])) := by
      rw [h.read, hpad, sextets_append hwhole, ← hletters, letters_append,
        List.replicate_zero, List.append_nil]
    refine
      { text := h.text
        si := h.si
        fits := ?_
        written := rfl
        whole := hwhole'
        read := ?_
        consumed := ⟨?_, hwhole', ?_⟩
        failCursor := fun hpos => absurd hpos (Nat.lt_irrefl 0)
        valCount := rfl
        vals := fun _ hi => absurd hi (Nat.not_lt_zero _)
        padCount := fun hpos => absurd hpos (Nat.lt_irrefl 0) }
    · simp [commit]
      omega
    · rw [letters_nil, List.replicate_zero, List.append_nil, List.append_nil]
      exact hread
    · simp [h.text, commit, h.si]
    · simp only [commit]
      rw [h.text, h.si, List.take_left, hread]

theorem quantum_of_letters {x y z w : Fin 64} (isFinalBlock : Bool)
    (h : Reading base64Dialect t pre src dstLen st [x, y, z, w])
    (hmark : Boundary base64Dialect t st.dst st.failCursor) (hpad : st.padCount = 0) :
    (quantumBytes dstLen st = .error .destinationTooSmall ∧
      Decoded base64Dialect t dstLen isFinalBlock (st.fail .destinationTooSmall)) ∨
    ∃ bytes, quantumBytes dstLen st = .ok bytes ∧ Reading base64Dialect t pre src dstLen
      { st.commit bytes with valCount := 0, padCount := 0 } [] := by
  obtain ⟨hfull, hcommit⟩ := h.quantum isFinalBlock hmark hpad
  rw [quantumBytes_four hpad (h.vals 0 (by simp)) (h.vals 1 (by simp)) (h.vals 2 (by simp))
    (h.vals 3 (by simp))]
  by_cases hspace : dstLen - st.dst.length < 3
  · exact .inl ⟨if_pos hspace, hfull hspace⟩
  · exact .inr ⟨_, if_neg hspace, hcommit hspace⟩

theorem decoded_afterPadding {bytes : List UInt8} (h : Reading base64Dialect t pre src dstLen st sexts)
    (hpad : 0 < st.padCount) (hcount : st.valCount = 4) (hbytes : octets sexts = some bytes)
    (hspace : ¬dstLen - st.dst.length < bytes.length) :
    Decoded base64Dialect t dstLen true (afterPadding t.length (st.commit bytes) src) := by
  have hfits : (st.dst ++ bytes).length ≤ dstLen := by
    have hfits := h.fits
    rw [List.length_append]
    omega
  have hvacant : vacant sexts.length = st.padCount := by
    have hvalCount := h.valCount
    have hsexts := h.padCount hpad
    rw [vacant]
    omega
  have hpads : base64Dialect.padded sexts.length (List.replicate st.padCount '='.toUInt8) = true := by
    have hfull : base64Dialect.padsFully = true := rfl
    have hall : (List.replicate st.padCount '='.toUInt8).all base64Dialect.isPad = true := by
      rw [List.all_eq_true]
      intro c hc
      rw [List.eq_of_mem_replicate hc]
      rfl
    simp [padded, hall, hfull, hvacant]
  have hcontent : base64Dialect.content (base64Dialect.marks pre) = some (st.dst ++ bytes) := by
    have hhead := noLetterHead_pads (k := st.padCount)
      (.inr (fun c hc => by cases hc) : _ ∨ base64Dialect.NoLetterHead [])
    rw [List.append_nil] at hhead
    rw [h.read, content_append _ h.whole, content_letters _ _ hhead, if_pos hpads,
      hbytes]
    rfl
  rw [afterPadding]
  by_cases hblank : src.all isWhitespace = true
  · rw [if_pos hblank]
    have hmarks : base64Dialect.marks src = [] := base64Dialect.marks_eq_nil.mpr hblank
    apply decoded_done hfits
    · rw [h.text, marks_append, hmarks, List.append_nil, hcontent]
    · exact fun h => by cases h
  · rw [if_neg hblank]
    have hmarks : base64Dialect.marks src ≠ [] := fun hnil =>
      hblank (base64Dialect.marks_eq_nil.mp hnil)
    have hnone : base64Dialect.content (base64Dialect.marks t) = none := by
      apply h.content_eq_none (.inl hpad)
      left
      apply padded_of_lt
      rw [List.length_append, List.length_replicate, hvacant]
      have := List.length_pos_iff.mpr hmarks
      omega
    exact
      { written := rfl
        fits := hfits
        le_length := by
          simp only [commit]
          rw [h.text, h.si, List.length_append]
          omega
        content_take := by
          simp only [commit]
          rw [h.text, h.si, List.take_left, hcontent]
        done := fun h => by cases h
        needMoreData := fun h => by cases h
        invalidData := fun _ _ => hnone
        tooSmall := fun h => by cases h
        tooSmall_of_content := fun _ h => by cases h
        boundary := fun h => by cases h }

theorem quantum_of_padding (h : Reading base64Dialect t pre src dstLen st sexts)
    (hmark : Boundary base64Dialect t st.dst st.failCursor) (hpad : 0 < st.padCount)
    (hcount : st.valCount = 4) :
    (∃ status, quantumBytes dstLen st = .error status ∧
      Decoded base64Dialect t dstLen true (st.fail status)) ∨
    ∃ bytes, quantumBytes dstLen st = .ok bytes ∧
      Decoded base64Dialect t dstLen true
        (afterPadding t.length (st.commit bytes) src) := by
  have hcapacity : ∀ more ≤ 3, st.dst.length + more ≤
      base64Dialect.capacity (base64Dialect.marks t).length := by
    grind [capacity, h.length_marks, h.whole]
  have hcontent : ∀ {bytes}, octets sexts = some bytes → ∀ bytes', base64Dialect.content
      (base64Dialect.marks t) = some bytes' → st.dst.length + bytes.length ≤ bytes'.length := by
    grind [h.content_of_noLetterHead]
  have hreject : octets sexts = none →
      Decoded base64Dialect t dstLen true (st.fail .invalidData) := fun hnone =>
    h.fail_invalidData hmark fun _ => h.content_eq_none (.inl hpad) (.inr hnone)
  have hfail : ∀ {bytes}, octets sexts = some bytes → bytes.length ≤ 3 →
      dstLen - st.dst.length < bytes.length →
      Decoded base64Dialect t dstLen true (st.fail .destinationTooSmall) := by
    intro bytes hbytes hlength hspace
    rw [fail, h.written]
    exact decoded_tooSmall hmark h.fits hspace (hcapacity _ hlength) (hcontent hbytes)
  have hsexts := h.padCount hpad
  have hvalCount := h.valCount
  rcases sexts with _ | ⟨x, _ | ⟨y, _ | ⟨z, _ | ⟨w, sexts⟩⟩⟩⟩
  · simp at hsexts
  · simp at hsexts
  · have htwo : st.padCount = 2 := by grind
    have hx : st.vals 0 = x := h.vals 0 (by simp)
    have hy : st.vals 1 = y := h.vals 1 (by simp)
    rw [quantumBytes_two htwo hx hy]
    by_cases hspare : (y : ℕ) % 16 = 0
    · have hbytes : octets [x, y] = some [octet₀ x y] := if_pos hspare
      rw [if_neg (not_not.mpr hspare)]
      by_cases hspace : dstLen - st.dst.length < 1
      · exact .inl ⟨_, if_pos hspace, hfail hbytes (by simp) hspace⟩
      · exact .inr ⟨_, if_neg hspace, h.decoded_afterPadding hpad hcount hbytes hspace⟩
    · exact .inl ⟨_, if_pos hspare, hreject (if_neg hspare)⟩
  · have hone : st.padCount = 1 := by grind
    have hx : st.vals 0 = x := h.vals 0 (by simp)
    have hy : st.vals 1 = y := h.vals 1 (by simp)
    have hz : st.vals 2 = z := h.vals 2 (by simp)
    rw [quantumBytes_three hone hx hy hz]
    by_cases hspare : (z : ℕ) % 4 = 0
    · have hbytes : octets [x, y, z] = some [octet₀ x y, octet₁ y z] := if_pos hspare
      rw [if_neg (not_not.mpr hspare)]
      by_cases hspace : dstLen - st.dst.length < 2
      · exact .inl ⟨_, if_pos hspace, hfail hbytes (by simp) hspace⟩
      · exact .inr ⟨_, if_neg hspace, h.decoded_afterPadding hpad hcount hbytes hspace⟩
    · exact .inl ⟨_, if_pos hspare, hreject (if_neg hspare)⟩
  · grind

theorem decoded_endOfText (h : Reading base64Dialect t pre [] dstLen st sexts) (hcount : st.valCount < 4) :
    Decoded base64Dialect t dstLen isFinalBlock (endOfText isFinalBlock st) := by
  have hvalCount := h.valCount
  rw [endOfText]
  by_cases hpending : st.valCount > 0
  · rw [if_pos hpending]
    cases hblock : isFinalBlock with
    | false =>
      rw [if_neg (by simp), h.written]
      exact decoded_needMoreData h.consumed h.fits rfl
    | true =>
      refine h.fail_invalidData (h.failCursor hpending) fun _ => h.content_eq_none ?_ (.inl ?_)
      · exact .inr nofun
      · grind [marks_nil, vacant, padded_of_length_ne]
  · rw [if_neg hpending]
    have hsexts : sexts = [] := List.eq_nil_of_length_eq_zero (by omega)
    have hpad : st.padCount = 0 := by omega
    have htext : t = pre := by rw [h.text, List.append_nil]
    have hread := h.read
    rw [hsexts, hpad, letters_nil, List.replicate_zero, List.append_nil,
      List.append_nil, ← htext] at hread
    have hboundary : Boundary base64Dialect t st.dst t.length :=
      ⟨le_rfl, h.whole, by rw [List.take_length, hread]⟩
    have hcontent := content_of_boundary hboundary
    rw [List.take_length] at hcontent
    rw [h.si, ← htext]
    exact decoded_done h.fits hcontent fun _ => hboundary

end Reading

/-! ## The loop -/

theorem decoded_decodeLoop {t pre src : List UInt8} {dstLen : ℕ} {st : DecodeState}
    {sexts : List (Fin 64)} {isFinalBlock : Bool} (h : Reading base64Dialect t pre src dstLen st sexts)
    (hcount : st.valCount < 4) (hfinal : 0 < st.padCount → isFinalBlock = true) :
    Decoded base64Dialect t dstLen isFinalBlock
      (decodeLoop t.length dstLen isFinalBlock st src) := by
  induction src generalizing pre st sexts with
  | nil => exact h.decoded_endOfText hcount
  | cons ch src ih =>
    rw [decodeLoop]
    cases hblank : isWhitespace ch with
    | true =>
      exact ih (h.blank hblank) hcount hfinal
    | false =>
      obtain ⟨hmarked, hmark⟩ := h.mark
      have hmarkedCount := Reading.valCount_mark st
      obtain ⟨hnone, hfail⟩ | ⟨st', sexts', hsome, hread, hstep, hfinal'⟩ :=
        hmarked.symbol_step isFinalBlock hmark hblank
      · rw [hnone]
        exact hfail
      · rw [hsome]
        by_cases hfour : st'.valCount = 4
        · have hmark' := hread.failCursor (by omega)
          simp only [if_pos hfour]
          rcases Nat.eq_zero_or_pos st'.padCount with hzero | hpos
          · have hlength : sexts'.length = 4 := by
              have hvalCount := hread.valCount
              omega
            obtain ⟨x, y, z, w, rfl⟩ := List.length_eq_four.mp hlength
            obtain ⟨herror, hfail⟩ | ⟨bytes, hok, hnext⟩ :=
              hread.quantum_of_letters isFinalBlock hmark' hzero
            · rw [herror]
              exact hfail
            · grind
          · obtain rfl := hfinal' hpos
            obtain ⟨status, herror, hfail⟩ | ⟨bytes, hok, hend⟩ :=
              hread.quantum_of_padding hmark' hpos hfour
            · rw [herror]
              exact hfail
            · simp [hok, hpos, hend]
        · grind

theorem decoded (t : List UInt8) (dstLen : ℕ) (isFinalBlock : Bool) :
    Decoded base64Dialect t dstLen isFinalBlock (decodeFromUtf8 t dstLen isFinalBlock) :=
  decoded_decodeLoop (Reading.initial _ t dstLen) (by decide) nofun

end SharpRuntime.Analysis.Base64Decoding
