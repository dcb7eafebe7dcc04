import SharpRuntime.Analysis.Base64UrlDecoding

/-!
# Decoding undoes encoding

The encoders write `spelling`, in the space their length functions ask for.  The decoders are
`Decoded`, so a text with that spelling between its blanks is read as the bytes, and a text that
is accepted has no other bare spelling.
-/

set_option autoImplicit false

namespace SharpRuntime.Analysis.Base64RoundTrip

open Machine Machine.Sextets
open Model Interface
open Codec
open Base64

variable (c : Codec)

theorem decoded (t : List UInt8) (dstLen : ℕ) (isFinalBlock : Bool) :
    Decoded c.dialect t dstLen isFinalBlock (c.decode t dstLen isFinalBlock) := by
  cases c with
  | base64 => exact Base64Decoding.decoded t dstLen isFinalBlock
  | base64Url => exact Base64UrlDecoding.decoded t dstLen isFinalBlock

section Consequences

variable {D : Dialect UInt8} {t : List UInt8} {dstLen : ℕ} {isFinalBlock : Bool} {r : Transfer}

theorem content_of_done (h : Decoded D t dstLen isFinalBlock r) (hdone : r.status = .done) :
    D.content (D.marks t) = some r.dst := by
  have htake := h.content_take
  rwa [h.done hdone, List.take_length] at htake

theorem eq_of_content {bytes : List UInt8} (h : Decoded D t dstLen true r)
    (hcontent : D.content (D.marks t) = some bytes) (hfits : bytes.length ≤ dstLen) :
    r = ⟨.done, t.length, bytes.length, bytes⟩ := by
  have hdone : r.status = .done := by
    cases hstatus : r.status with
    | done => rfl
    | needMoreData => exact absurd (h.needMoreData hstatus) (by simp)
    | invalidData =>
      rw [h.invalidData rfl hstatus] at hcontent
      cases hcontent
    | destinationTooSmall =>
      have hspace := h.tooSmall_of_content rfl hstatus bytes hcontent
      omega
  have hbytes : r.dst = bytes := by
    have hr := content_of_done h hdone
    grind
  obtain ⟨status, consumed, written, dst⟩ := r
  have hconsumed := h.done hdone
  have hwritten := h.written
  grind

end Consequences

theorem advance_advance (t : Transfer) (m n : ℕ) (s s' : List UInt8) :
    (t.advance m s).advance n s' = t.advance (m + n) (s ++ s') := by
  simp only [Transfer.advance, List.length_append, List.append_assoc, Nat.add_assoc]

theorem advance_zero (t : Transfer) : t.advance 0 [] = t := by
  simp [Transfer.advance]

theorem letterAt_or (kEncTable : List UInt8) (a b c : UInt8) :
    let bits := a.toNat <<< 16 ||| b.toNat <<< 8 ||| c.toNat
    letterAt kEncTable bits 18 = tableLetter kEncTable (sextet₀ a) ∧
      letterAt kEncTable bits 12 = tableLetter kEncTable (sextet₁ a b) ∧
      letterAt kEncTable bits 6 = tableLetter kEncTable (sextet₂ b c) ∧
      letterAt kEncTable bits 0 = tableLetter kEncTable (sextet₃ c) := by
  simp only [letterAt, tableLetter, or_bytes, pack_and_sextet₀, pack_and_sextet₁,
    pack_and_sextet₂, pack_and_sextet₃, and_self]

variable {dstLen : ℕ}

variable {q : List UInt8}

theorem encodeGroups_eq (kEncTable : List UInt8)
    (hq : q.length % 3 = 0) (src : List UInt8) (t : Transfer)
    (hspace : t.written + q.length / 3 * 4 ≤ dstLen) :
    encodeGroups kEncTable dstLen (q.length / 3) (q ++ src) t =
      .ok (src, t.advance q.length ((sextets q).map (tableLetter kEncTable))) := by
  fun_induction sextets q generalizing t with
  | case1 => simp [encodeGroups, Transfer.advance]
  | case2 a => simp at hq
  | case3 a b => simp at hq
  | case4 a b c q ih =>
    have hrest : q.length % 3 = 0 := by grind
    have hgroups : (a :: b :: c :: q).length / 3 = q.length / 3 + 1 := by
      simp only [List.length_cons]
      omega
    rw [hgroups] at hspace ⊢
    obtain ⟨h₀, h₁, h₂, h₃⟩ := letterAt_or kEncTable a b c
    rw [encodeGroups, if_neg (by omega)]
    simp only [List.cons_append, List.getD_cons_zero, List.getD_cons_succ, List.drop_succ_cons,
      List.drop_zero, h₀, h₁, h₂, h₃]
    rw [ih hrest _ (by simp only [Transfer.advance, List.length_cons, List.length_nil]; omega),
      advance_advance]
    simp only [List.length_cons, List.map_cons, List.cons_append, List.nil_append]
    congr 3
    omega

theorem exists_groups (bytes : List UInt8) :
    ∃ q r, bytes = q ++ r ∧ q.length % 3 = 0 ∧ q.length / 3 = bytes.length / 3 ∧
      r.length = bytes.length % 3 := by
  refine ⟨bytes.take (bytes.length / 3 * 3), bytes.drop (bytes.length / 3 * 3),
    (List.take_append_drop _ _).symm, ?_, ?_, ?_⟩
  · rw [List.length_take]
    omega
  · rw [List.length_take]
    omega
  · rw [List.length_drop]
    omega

theorem spelling_append (hq : q.length % 3 = 0) (r : List UInt8) :
    c.spelling (q ++ r) = c.dialect.letters (sextets q) ++ c.spelling r := by
  grind [length_sextets, vacant, spelling, sextets_append, Dialect.letters_append]

variable {r : List UInt8}

theorem base64_remainder (hr : r.length < 3) (t : Transfer)
    (hspace : t.written + (base64.spelling r).length ≤ dstLen) (hpos : r.length > 0) :
    encodeRemainder dstLen r.length r t =
      t.advance r.length (base64.spelling r) := by
  match r, hr with
  | [], _ => exact absurd hpos (Nat.lt_irrefl 0)
  | [a], _ =>
    obtain ⟨h₀, h₁, -⟩ := letterAt_or kEncTable a 0 0
    simp only [UInt8.toNat_zero, Nat.zero_shiftLeft, Nat.or_zero] at h₀ h₁
    have hlength : (base64.spelling [a]).length = 4 := rfl
    rw [encodeRemainder, if_neg (by omega)]
    simp only [List.length_singleton, if_true, List.getD_cons_zero, h₀, h₁]
    rfl
  | [a, b], _ =>
    obtain ⟨h₀, h₁, h₂, -⟩ := letterAt_or kEncTable a b 0
    simp only [UInt8.toNat_zero, Nat.or_zero] at h₀ h₁ h₂
    have hlength : (base64.spelling [a, b]).length = 4 := rfl
    rw [encodeRemainder, if_neg (by omega)]
    simp only [List.length_cons, List.length_nil, Nat.zero_add, Nat.reduceAdd, OfNat.ofNat_ne_one,
      if_false, List.getD_cons_zero, List.getD_cons_succ, h₀, h₁, h₂]
    rfl

theorem base64Url_remainder (hr : r.length < 3) (t : Transfer)
    (hspace : t.written + (base64Url.spelling r).length ≤ dstLen) :
    Base64Url.encodeRemainder dstLen r.length r t =
      t.advance r.length (base64Url.spelling r) := by
  match r, hr with
  | [], _ => simp [Base64Url.encodeRemainder, spelling, sextets, dialect,
      base64UrlDialect, Transfer.advance, Dialect.letters]
  | [a], _ =>
    obtain ⟨h₀, h₁, -⟩ := letterAt_or Base64Url.kEncTable a 0 0
    simp only [UInt8.toNat_zero, Nat.zero_shiftLeft, Nat.or_zero] at h₀ h₁
    have hlength : (base64Url.spelling [a]).length = 2 := rfl
    rw [Base64Url.encodeRemainder, if_pos List.length_singleton, if_neg (by omega)]
    simp only [List.getD_cons_zero, h₀, h₁]
    rfl
  | [a, b], _ =>
    obtain ⟨h₀, h₁, h₂, -⟩ := letterAt_or Base64Url.kEncTable a b 0
    simp only [UInt8.toNat_zero, Nat.or_zero] at h₀ h₁ h₂
    have hlength : (base64Url.spelling [a, b]).length = 3 := rfl
    have htwo : [a, b].length = 2 := rfl
    rw [Base64Url.encodeRemainder, if_neg (by simp), if_pos htwo, if_neg (by omega)]
    simp only [List.getD_cons_zero, List.getD_cons_succ, h₀, h₁, h₂]
    rfl

theorem encode_eq (bytes : List UInt8) (hspace : (c.spelling bytes).length ≤ dstLen) :
    c.encode bytes dstLen true =
      ⟨.done, bytes.length, (c.spelling bytes).length, c.spelling bytes⟩ := by
  obtain ⟨q, r, rfl, hq, hgroups, hr⟩ := exists_groups bytes
  have hr3 : r.length < 3 := by
    rw [hr]
    exact Nat.mod_lt _ (by decide)
  have hsplit := spelling_append c hq r
  rw [hsplit, List.length_append, Dialect.length_letters, length_sextets] at hspace
  have hgroupsSpace : (⟨.done, 0, 0, []⟩ : Transfer).written + q.length / 3 * 4 ≤ dstLen := by
    simp only
    omega
  have hloop := fun kEncTable => encodeGroups_eq kEncTable hq r ⟨.done, 0, 0, []⟩ hgroupsSpace
  have hadvance : ∀ kEncTable s, ((⟨.done, 0, 0, []⟩ : Transfer).advance q.length
      ((sextets q).map (tableLetter kEncTable))).advance r.length s =
      ⟨.done, (q ++ r).length, ((sextets q).map (tableLetter kEncTable) ++ s).length,
        (sextets q).map (tableLetter kEncTable) ++ s⟩ := by
    intro kEncTable s
    simp [Transfer.advance]
  have hwritten : ∀ kEncTable, ((⟨.done, 0, 0, []⟩ : Transfer).advance q.length
      ((sextets q).map (tableLetter kEncTable))).written = (q.length * 4 + 2) / 3 := by
    intro kEncTable
    simp only [Transfer.advance, Nat.zero_add, List.length_map, length_sextets]
  rw [hsplit]
  cases c with
  | base64 =>
    show encodeCore (q ++ r) dstLen true = _
    rw [encodeCore]
    simp only [← hgroups, ← hr, hloop, Bool.not_true, Bool.false_eq_true, false_and, if_false,
      true_and]
    by_cases hpos : r.length > 0
    · rw [if_pos hpos, base64_remainder hr3 _ (by rw [hwritten]; exact hspace) hpos, hadvance]
      rfl
    · obtain rfl : r = [] := List.eq_nil_of_length_eq_zero (by omega)
      exact (advance_zero _).symm.trans (hadvance kEncTable [])
  | base64Url =>
    show Base64Url.encodeCore (q ++ r) dstLen true = _
    rw [Base64Url.encodeCore]
    simp only [← hgroups, ← hr, hloop, Bool.not_true, Bool.false_eq_true, false_and, if_false,
      if_true]
    rw [base64Url_remainder hr3 _ (by rw [hwritten]; exact hspace), hadvance]
    rfl

theorem spelling_base64 (bytes : List UInt8) :
    base64.spelling bytes = base64Dialect.letters (sextets bytes) ++
      List.replicate (vacant (sextets bytes).length) '='.toUInt8 := rfl

theorem spelling_base64Url (bytes : List UInt8) :
    base64Url.spelling bytes = base64UrlDialect.letters (sextets bytes) :=
  List.append_nil _

theorem padded_base64 (n : ℕ) (pads : List UInt8) :
    base64Dialect.padded n pads =
      (pads.all (· == '='.toUInt8) && pads.length == vacant n) := rfl

theorem spells_spelling (bytes : List UInt8) : c.dialect.Spells (c.spelling bytes) bytes := by
  cases c with
  | base64 =>
    refine ⟨_, ?_, spelling_base64 bytes⟩
    show base64Dialect.padded _ _ = true
    rw [padded_base64, List.length_replicate, beq_self_eq_true, Bool.and_true, List.all_eq_true]
    intro ch hch
    rw [List.eq_of_mem_replicate hch, beq_self_eq_true]
  | base64Url => exact ⟨[], Base64UrlDecoding.padded_nil _, rfl⟩

theorem content_spelling (bytes : List UInt8) : c.dialect.content (c.spelling bytes) = some bytes :=
  c.dialect.content_eq_some.mpr (spells_spelling c bytes)

variable {bytes : List UInt8}

variable {t : List UInt8}

theorem bare_of_content
    (h : c.dialect.content (c.dialect.marks t) = some bytes) : c.bare t = c.spelling bytes := by
  have hspells := c.dialect.content_eq_some.mp h
  cases c with
  | base64 =>
    obtain ⟨pads, hpadded, hmarks⟩ := hspells
    have hboth : (pads.all (· == '='.toUInt8) && pads.length == vacant (sextets bytes).length) =
        true := hpadded
    rw [Bool.and_eq_true, beq_iff_eq] at hboth
    have hpads : pads = List.replicate (vacant (sextets bytes).length) '='.toUInt8 := by
      rw [List.eq_replicate_iff]
      exact ⟨hboth.2, fun ch hch => eq_of_beq (List.all_eq_true.mp hboth.1 ch hch)⟩
    rw [hpads] at hmarks
    exact hmarks
  | base64Url =>
    have hletters := Dialect.filter_of_spells _ hspells
    rw [Dialect.marks, List.filter_filter] at hletters
    have hbare : base64Url.bare t =
        t.filter fun ch => !base64UrlDialect.isPad ch && !base64UrlDialect.isBlank ch :=
      List.filter_congr fun ch _ => Bool.and_comm _ _
    rw [hbare, spelling_base64Url]
    exact hletters

theorem length_spelling_base64 (bytes : List UInt8) :
    (base64.spelling bytes).length = (bytes.length + 2) / 3 * 4 := by
  simp [spelling_base64, Dialect.length_letters, length_sextets, vacant]
  omega

theorem length_spelling_base64Url (bytes : List UInt8) :
    (base64Url.spelling bytes).length = (bytes.length * 4 + 2) / 3 := by
  rw [spelling_base64Url, Dialect.length_letters, length_sextets]

theorem getEncodedLength_eq (h : bytes.length ≤ 1610612733) :
    c.getEncodedLength bytes.length = pure ((c.spelling bytes).length : ℤ) := by
  have hrange : ∀ bound : ℤ, bound = 1610612733 →
      ¬((bytes.length : ℤ) < 0 ∨ (bytes.length : ℤ) > bound) := by
    rintro _ rfl
    omega
  cases c with
  | base64 =>
    rw [length_spelling_base64]
    simp only [Codec.getEncodedLength, Base64.getEncodedLength, getMaxEncodedToUtf8Length,
      if_neg (hrange kMaximumEncodeLength rfl)]
    rw [Run.signed_eq_pure (by decide) (by omega) (by omega), pure_bind,
      Int.tdiv_eq_ediv_of_nonneg (by omega), Run.signed_eq_pure (by decide) (by omega) (by omega)]
    rfl
  | base64Url =>
    rw [length_spelling_base64Url]
    simp only [Codec.getEncodedLength, Base64Url.getEncodedLength,
      if_neg (hrange Base64Url.kMaximumEncodeLength rfl)]
    rw [Int.tdiv_eq_ediv_of_nonneg (by omega), Int.tmod_eq_emod_of_nonneg (by omega),
      Run.signed_eq_pure (by decide) (by omega) (by omega), pure_bind,
      Run.signed_eq_pure (by decide) (by split <;> omega) (by split <;> omega)]
    congr 1
    split <;> omega

theorem decode_of_marks (h : c.dialect.marks t = c.spelling bytes) (hfits : bytes.length ≤ dstLen) :
    c.decode t dstLen true = ⟨.done, t.length, bytes.length, bytes⟩ := by
  have hcontent : c.dialect.content (c.dialect.marks t) = some bytes := by
    rw [h, content_spelling]
  exact eq_of_content (decoded c t dstLen true) hcontent hfits

theorem bare_spelling (bytes : List UInt8) : c.bare (c.spelling bytes) = c.spelling bytes := by
  apply bare_of_content
  rw [Dialect.marks_of_spells _ (spells_spelling c bytes), content_spelling]

/-- **Decoding undoes encoding.**  The encoder fills the space that its length function asks for,
and the decoder reads the text back whatever white space is put into it.  A text that the decoder
accepts is what its bytes are encoded as, apart from white space and optional padding, so that
every byte string has exactly one bare spelling that is accepted. -/
theorem decode_undoes_encode (c : Codec) :
    (∀ bytes : List UInt8, bytes.length ≤ 1610612733 →
      ∃ (n : ℕ) (text : List UInt8), c.getEncodedLength bytes.length = pure (n : ℤ) ∧
        c.encode bytes n true = ⟨.done, bytes.length, n, text⟩ ∧
        ∀ (t : List UInt8) (dstLen : ℕ), withoutBlanks t = text → bytes.length ≤ dstLen →
          c.decode t dstLen true = ⟨.done, t.length, bytes.length, bytes⟩) ∧
    (∀ (t : List UInt8) (dstLen : ℕ), (c.decode t dstLen true).status = .done →
      ∀ n, (c.bare t).length ≤ n →
        c.encode (c.decode t dstLen true).dst n true =
          ⟨.done, (c.decode t dstLen true).dst.length, (c.bare t).length, c.bare t⟩) ∧
    ∀ bytes : List UInt8, ∃! s, c.bare s = s ∧
      ∃ dstLen, c.decode s dstLen true = ⟨.done, s.length, bytes.length, bytes⟩ := by
  refine ⟨fun bytes hlength => ?_, fun t dstLen hdone n hn => ?_, fun bytes => ?_⟩
  · refine ⟨(c.spelling bytes).length, c.spelling bytes, getEncodedLength_eq c hlength,
      encode_eq c bytes le_rfl, fun t dstLen ht hfits => ?_⟩
    have hmarks : c.dialect.marks t = withoutBlanks t := by cases c <;> rfl
    exact decode_of_marks c (hmarks.trans ht) hfits
  · have hcontent := content_of_done (decoded c t dstLen true) hdone
    rw [bare_of_content c hcontent] at hn ⊢
    exact encode_eq c _ hn
  · refine ⟨c.spelling bytes, ⟨bare_spelling c bytes, bytes.length, ?_⟩, ?_⟩
    · exact decode_of_marks c (Dialect.marks_of_spells _ (spells_spelling c bytes)) le_rfl
    · rintro s ⟨hbare, dstLen, hdecode⟩
      have hcontent := content_of_done (decoded c s dstLen true) (by rw [hdecode])
      rw [hdecode] at hcontent
      rw [← hbare, bare_of_content c hcontent]

/-- The byte `A`, and the text `Q\nQ = =` of it. -/
theorem decode_undoes_encode_letter :
    (∃ (n : ℕ) (text : List UInt8), base64Url.getEncodedLength [65].length = pure (n : ℤ) ∧
      base64Url.encode [65] n true = ⟨.done, [65].length, n, text⟩ ∧
      ∀ (t : List UInt8) (dstLen : ℕ), withoutBlanks t = text → [65].length ≤ dstLen →
        base64Url.decode t dstLen true = ⟨.done, t.length, [65].length, [65]⟩) ∧
    base64.encode (base64.decode [81, 10, 81, 32, 61, 32, 61] 1 true).dst 4 true =
      ⟨.done, 1, 4, [81, 81, 61, 61]⟩ :=
  ⟨(decode_undoes_encode .base64Url).1 [65] (by decide),
    (decode_undoes_encode .base64).2.1 [81, 10, 81, 32, 61, 32, 61] 1 (by decide) 4 (by decide)⟩

end SharpRuntime.Analysis.Base64RoundTrip

/-!
# Decoding in chunks

A block that is not final stops at a boundary between two quanta, so what it leaves unread, put in
front of the next chunk, stands for exactly the bytes that are still missing.
-/

namespace SharpRuntime.Analysis.Base64Streaming

open Machine Machine.Sextets
open Model Interface
open Base64RoundTrip (decoded content_of_done eq_of_content)

variable {dstLen : ℕ}

theorem status_of_content_none {D : Dialect UInt8} {t : List UInt8} {r : Transfer}
    (h : Decoded D t dstLen true r) (hcontent : D.content (D.marks t) = none)
    (hspace : D.capacity t.length ≤ dstLen) : r.status = .invalidData := by
  cases hstatus : r.status with
  | done =>
    rw [content_of_done h hstatus] at hcontent
    cases hcontent
  | needMoreData => exact absurd (h.needMoreData hstatus) (by simp)
  | invalidData => rfl
  | destinationTooSmall =>
    have hlt := h.tooSmall hstatus
    have hmono := D.capacity_mono (D.length_marks_le t)
    omega

section Boundaries

variable {D : Dialect UInt8} {t₁ dst : List UInt8} {cursor : ℕ}

theorem content_boundary_append (h : Boundary D t₁ dst cursor) (t₂ : List UInt8) :
    D.content (D.marks (t₁ ++ t₂)) =
      (D.content (D.marks (t₁.drop cursor ++ t₂))).map (dst ++ ·) := by
  have hsplit : t₁ ++ t₂ = t₁.take cursor ++ (t₁.drop cursor ++ t₂) := by
    rw [← List.append_assoc, List.take_append_drop]
  rw [hsplit, D.marks_append, h.marks_take, D.content_append h.whole]

theorem capacity_boundary_append (h : Boundary D t₁ dst cursor) (t₂ : List UInt8) :
    D.capacity (t₁.drop cursor ++ t₂).length + dst.length ≤ D.capacity (t₁ ++ t₂).length := by
  have hletters : (sextets dst).length ≤ cursor := by
    have hmarks := D.length_marks_le (t₁.take cursor)
    rw [h.marks_take, D.length_letters, List.length_take] at hmarks
    omega
  rw [length_sextets] at hletters
  have hwhole := h.whole
  have hcursor := h.le_length
  rw [List.length_append, List.length_append, List.length_drop, Dialect.capacity, Dialect.capacity]
  split <;> omega

end Boundaries

theorem decode_rest (c : Codec) {t₁ t₂ dst : List UInt8} {cursor dstLen₂ : ℕ}
    (h : Boundary c.dialect t₁ dst cursor)
    (hspace : c.dialect.capacity (t₁ ++ t₂).length ≤ dstLen)
    (hspace₂ : c.dialect.capacity (t₁.drop cursor ++ t₂).length ≤ dstLen₂) :
    (c.decode (t₁.drop cursor ++ t₂) dstLen₂ true).status =
        (c.decode (t₁ ++ t₂) dstLen true).status ∧
      ((c.decode (t₁ ++ t₂) dstLen true).status = .done →
        dst ++ (c.decode (t₁.drop cursor ++ t₂) dstLen₂ true).dst =
          (c.decode (t₁ ++ t₂) dstLen true).dst) := by
  have hcontent := content_boundary_append h t₂
  have hwhole := decoded c (t₁ ++ t₂) dstLen true
  have hrest := decoded c (t₁.drop cursor ++ t₂) dstLen₂ true
  cases hread : c.dialect.content (c.dialect.marks (t₁.drop cursor ++ t₂)) with
  | none => grind [status_of_content_none]
  | some bytes =>
    rw [hread, Option.map_some] at hcontent
    rw [eq_of_content hwhole hcontent ((c.dialect.length_le_capacity hcontent).trans hspace),
      eq_of_content hrest hread ((c.dialect.length_le_capacity hread).trans hspace₂)]
    exact ⟨rfl, fun _ => rfl⟩

/-- **Decoding in chunks is decoding at once.**  If a first block that is not final ends with
`Done` or `NeedMoreData` (so that it has no padding), then the final block that begins where it
stopped ends as one call on the whole text does, in a destination of its own or in what is left of
the first one, and the bytes of the two calls are those of the one.  At every return, whatever the
status, the bytes written are what the text consumed decodes to. -/
theorem decode_chunks (c : Codec) :
    (∀ (t₁ t₂ : List UInt8) (dstLen dstLen₁ : ℕ),
      ((c.decode t₁ dstLen₁ false).status = .done ∨
        (c.decode t₁ dstLen₁ false).status = .needMoreData) →
      c.dialect.capacity (t₁ ++ t₂).length ≤ dstLen →
      ∀ dstLen₂,
        (c.dialect.capacity (t₁.drop (c.decode t₁ dstLen₁ false).consumed ++ t₂).length ≤ dstLen₂ ∨
          dstLen₂ = dstLen - (c.decode t₁ dstLen₁ false).written) →
        (c.decode (t₁.drop (c.decode t₁ dstLen₁ false).consumed ++ t₂) dstLen₂ true).status =
            (c.decode (t₁ ++ t₂) dstLen true).status ∧
          ((c.decode (t₁ ++ t₂) dstLen true).status = .done →
            (c.decode t₁ dstLen₁ false).dst ++
                (c.decode (t₁.drop (c.decode t₁ dstLen₁ false).consumed ++ t₂) dstLen₂ true).dst =
              (c.decode (t₁ ++ t₂) dstLen true).dst)) ∧
    ∀ (t : List UInt8) (dstLen : ℕ) (isFinalBlock : Bool),
      (c.decode t dstLen isFinalBlock).written = (c.decode t dstLen isFinalBlock).dst.length ∧
      ∀ dstLen', (c.decode t dstLen isFinalBlock).written ≤ dstLen' →
        c.decode (t.take (c.decode t dstLen isFinalBlock).consumed) dstLen' true =
          ⟨.done, (c.decode t dstLen isFinalBlock).consumed,
            (c.decode t dstLen isFinalBlock).written, (c.decode t dstLen isFinalBlock).dst⟩ := by
  constructor
  · intro t₁ t₂ dstLen dstLen₁ hstatus hspace dstLen₂ hspace₂
    have hfirst := decoded c t₁ dstLen₁ false
    have hboundary := hfirst.boundary rfl hstatus
    refine decode_rest c hboundary hspace ?_
    rcases hspace₂ with hspace₂ | rfl
    · exact hspace₂
    · have hcapacity := capacity_boundary_append hboundary t₂
      rw [hfirst.written]
      omega
  · intro t dstLen isFinalBlock
    have h := decoded c t dstLen isFinalBlock
    refine ⟨h.written, fun dstLen' hspace => ?_⟩
    rw [h.written] at hspace ⊢
    have hprefix := decoded c (t.take (c.decode t dstLen isFinalBlock).consumed) dstLen' true
    rw [eq_of_content hprefix h.content_take hspace, List.length_take, min_eq_left h.le_length]

/-- The text `QUJDR` stops after its first quantum; with `A==` behind it the rest is read. -/
theorem decode_chunks_split :
    (Codec.base64.decode ([81, 85, 74, 67, 82].drop 4 ++ [65, 61, 61]) 3 true).status =
        (Codec.base64.decode ([81, 85, 74, 67, 82] ++ [65, 61, 61]) 6 true).status ∧
      ((Codec.base64.decode ([81, 85, 74, 67, 82] ++ [65, 61, 61]) 6 true).status = .done →
        (Codec.base64.decode [81, 85, 74, 67, 82] 3 false).dst ++
            (Codec.base64.decode ([81, 85, 74, 67, 82].drop 4 ++ [65, 61, 61]) 3 true).dst =
          (Codec.base64.decode ([81, 85, 74, 67, 82] ++ [65, 61, 61]) 6 true).dst) :=
  (decode_chunks .base64).1 [81, 85, 74, 67, 82] [65, 61, 61] 6 3 (.inr (by decide)) (by decide) 3
    (by decide)

end SharpRuntime.Analysis.Base64Streaming
