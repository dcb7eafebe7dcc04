import SharpRuntime.Analysis.Utf8Scalar
import SharpRuntime.Interface.UnicodeText

/-!
# Round trips through UTF-16 and UTF-32

`getBytes` writes the units of the scalars of a string, inside its buffer.  `getString` reads the
scalars of as many bytes as the count says, which is the size of the vector cut to 32 bits, and
drops a mark in front of them.  So the two undo each other when there is no mark to drop and the
size fits the count, and only then.
-/

set_option autoImplicit false

namespace SharpRuntime.Analysis.UnicodeEncoding

open Machine Interface Model Model.Encoding Model.Utf8Scalar Utf8Scalar
open ScalarCode
open Model.UnicodeEncoding
open Utf16

/-! ## What is lost -/

def withoutMark : List ℕ → List ℕ
  | [] => []
  | c :: cs => if c = 0xFEFF then cs else c :: cs

theorem length_withoutMark_le (cs : List ℕ) : (withoutMark cs).length ≤ cs.length := by
  cases cs with
  | nil => exact le_rfl
  | cons c cs =>
    rw [withoutMark]
    split
    · exact Nat.le_succ _
    · exact le_rfl

variable {cs : List ℕ}

theorem withoutMark_eq_self_iff : withoutMark cs = cs ↔ cs.head? ≠ some 0xFEFF := by
  cases cs with
  | nil => exact iff_of_true rfl nofun
  | cons c cs => simp [withoutMark]

theorem mem_of_mem_withoutMark {c : ℕ} (h : c ∈ withoutMark cs) : c ∈ cs := by
  cases cs with
  | nil => exact h
  | cons d cs => grind [withoutMark]

section Decoding

variable {β : Type} (code : ScalarCode β) (layout : ByteLayout β)

/-- What `getString` does with a vector: it reads as many bytes as the count says. -/
def decodeVector (bytes : List UInt8) : Run Exception (List UInt8) :=
  if toIntcs bytes.length < 0 then Run.throwing (.outOfRange "count")
  else pure (utf8.encodeAll
    (withoutMark (scalarsOf code layout (bytes.take (toIntcs bytes.length).toNat))))

theorem startsWithMark_iff {bytes : List UInt8} :
    StartsWithMark code layout bytes ↔ (scalarsOf code layout bytes).head? = some 0xFEFF :=
  ((code.bytes layout).head?_replaced_iff _ (Or.inr ⟨by decide, by decide⟩) (by decide)).symm

theorem decodeVector_eq_iff
    (hbound : ∀ s, ((code.bytes layout).step (unitwise layout) s).2 ≤ 4)
    (bytes : List UInt8) :
    decodeVector code layout bytes = pure (textOf code layout bytes) ↔
      ¬ StartsWithMark code layout bytes ∧ bytes.length ≤ intcsMax := by
  have hscalars : ∀ s, ∀ c ∈ scalarsOf code layout s, Scalar c := fun s =>
    (code.bytes layout).scalar_of_mem_replaced _
  rw [startsWithMark_iff, decodeVector]
  by_cases hfits : bytes.length ≤ intcsMax
  · rw [toIntcs_of_le hfits, if_neg (by omega), Int.toNat_natCast, List.take_length, Run.pure_inj,
      textOf]
    constructor
    · intro h
      have heq := utf8.encodeAll_inj (fun c hc => hscalars bytes c (mem_of_mem_withoutMark hc))
        (hscalars bytes) h
      exact ⟨withoutMark_eq_self_iff.mp heq, hfits⟩
    · rintro ⟨hmark, -⟩
      rw [withoutMark_eq_self_iff.mpr hmark]
  · refine iff_of_false ?_ (fun h => hfits h.2)
    rcases toIntcs_of_lt (Nat.lt_of_not_le hfits) with hneg | ⟨hpos, hcut⟩
    · rw [if_pos hneg]
      intro h
      cases h
    · rw [if_neg (by omega), Run.pure_inj, textOf]
      intro h
      have heq := utf8.encodeAll_inj (fun c hc => hscalars _ c (mem_of_mem_withoutMark hc))
        (hscalars bytes) h
      -- the scalars of the bytes that are read are too few
      have hfew : 4 * (scalarsOf code layout (bytes.take (toIntcs bytes.length).toNat)).length +
          (bytes.length - (toIntcs bytes.length).toNat) ≤
          4 * (scalarsOf code layout bytes).length + 4 * 4 :=
        (code.bytes layout).length_replaced_take hbound (by omega)
      have hle := length_withoutMark_le
        (scalarsOf code layout (bytes.take (toIntcs bytes.length).toNat))
      rw [heq] at hle
      omega

theorem decodeVector_wellFormed {bytes out : List UInt8}
    (h : decodeVector code layout bytes = pure out) : utf8.WellFormed out := by
  rw [decodeVector] at h
  split at h
  case isTrue => cases h
  case isFalse =>
    rw [Run.pure_inj] at h
    refine ⟨_, ?_, h.symm⟩
    intro c hc
    exact (code.bytes layout).scalar_of_mem_replaced _ c (mem_of_mem_withoutMark hc)

/-- The scalars of a string come back from their bytes when no mark stands in front and the bytes
fit the count, and only then. -/
theorem decodeVector_encodeAll_iff
    (hbound : ∀ s, ((code.bytes layout).step (unitwise layout) s).2 ≤ 4)
    {cs : List ℕ} (hcs : ∀ c ∈ cs, Scalar c) :
    decodeVector code layout ((code.bytes layout).encodeAll cs) = pure (utf8.encodeAll cs) ↔
      cs.head? ≠ some 0xFEFF ∧ (code.encodeAll cs).length * layout.width ≤ intcsMax := by
  have hback : scalarsOf code layout ((code.bytes layout).encodeAll cs) = cs :=
    (code.bytes layout).replaced_encodeAll _ hcs
  have hiff := decodeVector_eq_iff code layout hbound ((code.bytes layout).encodeAll cs)
  rw [startsWithMark_iff, textOf, hback] at hiff
  rw [hiff, code.bytes_encodeAll, layout.length_flatMap_put]

end Decoding

/-! ## Writing -/

variable {size : ℕ} {out : List UInt8}

theorem put_eq (h : out.length < size) (b : UInt8) : put size out b = pure (out ++ [b]) := by
  rw [Encoding.put, Run.observe_eq_pure h, pure_bind]

theorem put_two (h : out.length + 2 ≤ size) (a b : UInt8) :
    (put size out a >>= fun out => put size out b) = pure (out ++ [a, b]) := by
  have hnext : (out ++ [a]).length < size := by
    simp
    omega
  rw [put_eq (by omega), pure_bind, put_eq hnext, List.append_assoc, List.singleton_append]

theorem put_four (h : out.length + 4 ≤ size) (a b c d : UInt8) :
    (put size out a >>= fun out => put size out b >>= fun out => put size out c >>= fun out =>
      put size out d) = pure (out ++ [a, b, c, d]) := by grind [put_eq, put_two]

theorem ofNat_and_FF {m n : ℕ} (h : m % 256 = n % 256) : UInt8.ofNat (m &&& 0xFF) = UInt8.ofNat n := by
  have hmask : m &&& 0xFF = m % 256 := Nat.and_two_pow_sub_one_eq_mod m 8
  rw [← UInt8.toNat_inj, UInt8.toNat_ofNat', UInt8.toNat_ofNat', hmask]
  omega

theorem writeUnit16_eq (e : Model.UnicodeEncoding) (unit : ℕ) (h : out.length + 2 ≤ size) :
    e.writeUnit size out unit = pure (out ++ (word16 e.bigEndian).put (UInt16.ofNat unit)) := by
  have hlow : UInt8.ofNat (unit &&& 0xFF) = UInt8.ofNat (UInt16.ofNat unit).toNat :=
    ofNat_and_FF (by rw [UInt16.toNat_ofNat']; omega)
  have hhigh : UInt8.ofNat ((unit >>> 8) &&& 0xFF) =
      UInt8.ofNat ((UInt16.ofNat unit).toNat / 256) := by
    apply ofNat_and_FF
    simp
    omega
  rw [writeUnit]
  rw [hlow, hhigh]
  cases hbig : e.bigEndian with
  | false =>
    rw [if_neg Bool.false_ne_true, put_two h]
    rfl
  | true =>
    rw [if_pos rfl, put_two h]
    rfl

theorem writeUnit32_eq (e : UTF32Encoding) {cp : ℕ}
    (hcp : cp < 0x110000) (h : out.length + 4 ≤ size) :
    e.writeUnit size out cp = pure (out ++ (word32 e.bigEndian).put (UInt32.ofNat cp)) := by
  have htoNat : (UInt32.ofNat cp).toNat = cp := by
    rw [UInt32.toNat_ofNat', Nat.mod_eq_of_lt (by omega)]
  have hbyte : ∀ (w k : ℕ), cp / 2 ^ w = k → UInt8.ofNat ((cp >>> w) &&& 0xFF) = UInt8.ofNat k := by
    intro w k hk
    rw [← hk, Nat.shiftRight_eq_div_pow]
    exact ofNat_and_FF rfl
  have hput : (word32 e.bigEndian).put (UInt32.ofNat cp) = ordered e.bigEndian
      [UInt8.ofNat cp, UInt8.ofNat (cp / 256), UInt8.ofNat (cp / 256 / 256),
        UInt8.ofNat (cp / 256 / 256 / 256)] := by
    change ordered e.bigEndian (bytesOf 4 (UInt32.ofNat cp).toNat) = _
    rw [htoNat]
    rfl
  rw [UTF32Encoding.writeUnit, hput, ofNat_and_FF (m := cp) rfl, hbyte 8 (cp / 256) rfl,
    hbyte 16 (cp / 256 / 256) (by omega), hbyte 24 (cp / 256 / 256 / 256) (by omega)]
  cases hbig : e.bigEndian with
  | false =>
    rw [if_pos Bool.false_ne_true, put_four h]
    rfl
  | true =>
    rw [if_neg (not_not.mpr rfl), put_four h]
    rfl

theorem foldlM_write (code : ScalarCode UInt8) (size : ℕ)
    {visit : List UInt8 → ℕ → Run Exception (List UInt8)}
    (hvisit : ∀ out c, Scalar c → out.length + (code.encode c).length ≤ size →
      visit out c = pure (out ++ code.encode c)) (hcs : ∀ c ∈ cs, Scalar c)
    (hsize : out.length + (code.encodeAll cs).length ≤ size) :
    cs.foldlM visit out = pure (out ++ code.encodeAll cs) := by
  induction cs generalizing out with
  | nil =>
    simp
  | cons c cs ih => grind [code.encodeAll_cons]

theorem length_encodeAll_replaced (code : ScalarCode UInt8) (factor : ℕ)
    (hfactor : ∀ c, (code.encode c).length ≤ factor * (utf8.encode c).length)
    (hreplacement : (code.encode 0xFFFD).length ≤ factor) (s : List UInt8) :
    (code.encodeAll (utf8.replaced 0 s)).length ≤ s.length * factor := by
  induction s using utf8.step_induction 0 with
  | nil =>
    simp
  | step s hs ih =>
    have hlength := List.length_pos_iff.mpr hs
    have hstep : (code.encode (utf8.step 0 s).1).length ≤ factor * (utf8.step 0 s).2 ∧
        (utf8.step 0 s).2 ≤ s.length := by
      cases hread : utf8.read? s with
      | none =>
        rw [utf8.step_of_not_read? 0 hread]
        exact ⟨by rw [Pi.zero_apply, Nat.zero_add, Nat.mul_one]; exact hreplacement, hlength⟩
      | some r =>
        rw [utf8.step_of_read? 0 hread, (utf8.of_read? hread).2.1]
        exact ⟨hfactor _, (utf8.of_read? hread).2.1 ▸ (utf8.length_of_read? hread).2⟩
    have hsplit : s.length * factor = factor * (utf8.step 0 s).2 +
        (s.length - (utf8.step 0 s).2) * factor := by
      rw [Nat.mul_comm factor, ← Nat.add_mul, Nat.add_sub_cancel' hstep.2]
    rw [List.length_drop] at ih
    rw [utf8.replaced_step 0 hs, code.encodeAll_cons, List.length_append, hsplit]
    exact Nat.add_le_add hstep.1 ih

theorem getBytes16_eq (e : Model.UnicodeEncoding) (s : List UInt8) :
    e.getBytes s =
      pure ((utf16.bytes (word16 e.bigEndian)).encodeAll (utf8.replaced 0 s)) := by
  have hlength : ∀ c, ((utf16.bytes (word16 e.bigEndian)).encode c).length =
      (if c < 0x10000 then 1 else 2) * 2 := by
    intro c
    rw [← length_encode]
    exact (word16 e.bigEndian).length_flatMap_put _
  have hsize := length_encodeAll_replaced (utf16.bytes (word16 e.bigEndian)) 2
    (fun c => by
      have hutf8 : (utf8.encode c).length = _ := Utf8.length_encode c
      rw [hlength, hutf8]
      split_ifs <;> omega)
    (by rw [hlength, if_pos (by decide)]) s
  rw [getBytes, decodeLoop_eq]
  refine foldlM_write (utf16.bytes (word16 e.bigEndian)) (s.length * 2 + 2) ?_
    (utf8.scalar_of_mem_replaced 0) (by rw [List.length_nil]; omega)
  intro out c hc hout
  rw [hlength] at hout
  by_cases hone : c < 0x10000
  · have hencode : (utf16.bytes (word16 e.bigEndian)).encode c =
        (word16 e.bigEndian).put (UInt16.ofNat c) := by
      change (encode c).flatMap _ = _
      rw [encode_one hone, List.flatMap_singleton]
    rw [if_pos hone] at hout ⊢
    rw [writeUnit16_eq e c (by omega), hencode]
  · have hencode : (utf16.bytes (word16 e.bigEndian)).encode c =
        (word16 e.bigEndian).put (UInt16.ofNat (0xD800 + (c - 0x10000) / 1024)) ++
          (word16 e.bigEndian).put (UInt16.ofNat (0xDC00 + (c - 0x10000) % 1024)) := by
      change (encode c).flatMap _ = _
      rw [encode_two (by omega), List.flatMap_cons, List.flatMap_singleton]
    have hshift : (c - 0x10000) >>> 10 = (c - 0x10000) / 1024 := Nat.shiftRight_eq_div_pow _ 10
    have hmask : (c - 0x10000) &&& 0x3FF = (c - 0x10000) % 1024 :=
      Nat.and_two_pow_sub_one_eq_mod _ 10
    rw [if_neg hone] at hout ⊢
    have hnext : (out ++ (word16 e.bigEndian).put
        (UInt16.ofNat (0xD800 + (c - 0x10000) / 1024))).length + 2 ≤ s.length * 2 + 2 := by
      rw [List.length_append, (word16 e.bigEndian).length_put]
      change out.length + 2 + 2 ≤ s.length * 2 + 2
      omega
    dsimp only
    rw [hshift, hmask, writeUnit16_eq e _ (by omega), pure_bind, writeUnit16_eq e _ hnext, hencode,
      List.append_assoc]

theorem getBytes32_eq (e : UTF32Encoding) (s : List UInt8) :
    e.getBytes s =
      pure ((utf32.bytes (word32 e.bigEndian)).encodeAll (utf8.replaced 0 s)) := by
  have hencode : ∀ c, (utf32.bytes (word32 e.bigEndian)).encode c =
      (word32 e.bigEndian).put (UInt32.ofNat c) := fun c => List.flatMap_singleton _ _
  have hlength : ∀ c, ((utf32.bytes (word32 e.bigEndian)).encode c).length = 4 := by
    intro c
    rw [hencode]
    exact (word32 e.bigEndian).length_put _
  have hsize := length_encodeAll_replaced (utf32.bytes (word32 e.bigEndian)) 4
    (fun c => by
      have hpos := utf8.length_encode_pos c
      rw [hlength]
      omega)
    (by rw [hlength]) s
  rw [UTF32Encoding.getBytes, decodeLoop_eq]
  refine foldlM_write (utf32.bytes (word32 e.bigEndian)) (s.length * 4 + 4) ?_
    (utf8.scalar_of_mem_replaced 0) (by rw [List.length_nil]; omega)
  intro out c hc hout
  rw [hlength] at hout
  rw [writeUnit32_eq e hc.lt hout, hencode]

/-! ## Reading -/

section Loop

variable {β : Type} (code : ScalarCode β) (layout : ByteLayout β)

theorem scalarsOf_short {s : List UInt8} (hs : s ≠ []) (h : s.length < layout.width) :
    scalarsOf code layout s = [0xFFFD] := by
  have hread : (code.bytes layout).read? s = none := by
    rw [code.bytes_read?, layout.units_of_lt h, code.read?_nil, Option.map_none]
  have hdrop : s.drop (layout.width - 1 + 1) = [] := by
    rw [List.drop_eq_nil_iff]
    omega
  rw [scalarsOf, (code.bytes layout).replaced_step _ hs,
    (code.bytes layout).step_of_not_read? _ hread, hdrop, replaced_nil]

variable {data : List UInt8} {tail : ℕ}

theorem loop_exit {extra : ℕ} (hextra : extra + 1 = layout.width)
    (htail : tail ≤ data.length) (body : ℕ × List UInt8 → Run Exception (ℕ × List UInt8))
    (fuel : ℕ) {i : ℕ} (out : List UInt8) (hi : ¬ i + extra < tail) :
    (Run.whileLoop (fun p : ℕ × List UInt8 => decide (p.1 + extra < tail)) body fuel (i, out) >>=
        fun p => pure (if p.1 < tail then p.2 ++ replacementText else p.2) :
      Run Exception (List UInt8)) =
      pure (out ++ textOf code layout (window data tail i)) := by
  have hlength := length_window htail i
  have hcond : decide ((i, out).1 + extra < tail) = false := decide_eq_false hi
  have hexit : Run.whileLoop (fun p : ℕ × List UInt8 => decide (p.1 + extra < tail)) body fuel
      (i, out) = pure (i, out) := by
    cases fuel <;> simp only [Run.whileLoop, hcond, Bool.false_eq_true, if_false]
  rw [hexit, pure_bind]
  by_cases hrest : i < tail
  · have hne : window data tail i ≠ [] := by
      rw [← List.length_pos_iff]
      omega
    rw [if_pos hrest, textOf, scalarsOf_short code layout hne (by omega)]
    rfl
  · rw [if_neg hrest, window_nil htail hrest, textOf, scalarsOf, replaced_nil,
      utf8.encodeAll_nil, List.append_nil]

theorem loop_eq {extra : ℕ} (hextra : extra + 1 = layout.width)
    (htail : tail ≤ data.length) (body : ℕ × List UInt8 → Run Exception (ℕ × List UInt8))
    (hbody : ∀ i out, i + extra < tail → body (i, out) =
      pure (i + ((code.bytes layout).step (unitwise layout) (window data tail i)).2,
        out ++ utf8.encode
          ((code.bytes layout).step (unitwise layout) (window data tail i)).1))
    (fuel i : ℕ) (out : List UInt8) (hfuel : tail - i ≤ fuel) :
    (Run.whileLoop (fun p : ℕ × List UInt8 => decide (p.1 + extra < tail)) body fuel (i, out) >>=
        fun p => pure (if p.1 < tail then p.2 ++ replacementText else p.2) :
      Run Exception (List UInt8)) =
      pure (out ++ textOf code layout (window data tail i)) := by
  induction fuel generalizing i out with
  | zero => exact loop_exit code layout hextra htail body 0 out (by omega)
  | succ fuel ih =>
    by_cases hi : i + extra < tail
    · have hne : window data tail i ≠ [] := by
        rw [← List.length_pos_iff, length_window htail]
        omega
      have hpos := (code.bytes layout).step_pos (unitwise layout) (window data tail i)
      have hrest := ih
        (i + ((code.bytes layout).step (unitwise layout) (window data tail i)).2)
        (out ++ utf8.encode
          ((code.bytes layout).step (unitwise layout) (window data tail i)).1)
        (by omega)
      have htext : textOf code layout (window data tail i) =
          utf8.encode ((code.bytes layout).step (unitwise layout)
            (window data tail i)).1 ++ textOf code layout (window data tail
              (i + ((code.bytes layout).step (unitwise layout) (window data tail i)).2)) := by
        rw [textOf, scalarsOf, replaced_step _ _ hne, utf8.encodeAll_cons, drop_window]
        rfl
      grind [Run.whileLoop]
    · exact loop_exit code layout hextra htail body _ out hi

theorem startsWithMark_unit_iff {u : β} (hmark : code.encode 0xFEFF = [u]) {s : List UInt8} :
    StartsWithMark code layout s ↔ layout.width ≤ s.length ∧ layout.get s = u := by
  have hencode : (code.bytes layout).encode 0xFEFF = layout.put u := by
    change (code.encode 0xFEFF).flatMap layout.put = _
    rw [hmark, List.flatMap_singleton]
  rw [StartsWithMark, hencode, layout.put_prefix_iff]

theorem textOf_start {u : β} (hmark : code.encode 0xFEFF = [u]) {start : ℕ}
    (hstart : start = 0 ∧ ¬ StartsWithMark code layout (window data tail 0) ∨
      start = layout.width ∧ StartsWithMark code layout (window data tail 0)) :
    textOf code layout (window data tail start) =
      utf8.encodeAll (withoutMark (scalarsOf code layout (data.take tail))) := by
  have hwindow : data.take tail = window data tail 0 := rfl
  rw [hwindow]
  rcases hstart with ⟨rfl, hnone⟩ | ⟨rfl, rest, hrest⟩
  · rw [startsWithMark_iff] at hnone
    rw [withoutMark_eq_self_iff.mpr hnone]
    rfl
  · have hread := (code.bytes layout).read?_encode (Or.inr ⟨by decide, by decide⟩ : Scalar 0xFEFF)
      rest
    have hwidth : ((code.bytes layout).encode 0xFEFF).length = layout.width := by
      change ((code.encode 0xFEFF).flatMap layout.put).length = _
      rw [hmark, List.flatMap_singleton, layout.length_put]
    rw [hrest, hwidth] at hread
    rw [scalarsOf, replaced_of_read? _ _ hread, withoutMark, if_pos rfl]
    rfl

end Loop

theorem checkedRawDecodeRange_vector (bytes : List UInt8) :
    checkedRawDecodeRange (some bytes) 0 (toIntcs bytes.length) =
      if toIntcs bytes.length < 0 then Run.throwing (.outOfRange "count")
      else pure (0, (toIntcs bytes.length).toNat) := by
  rw [checkedRawDecodeRange, validateRawDecodeRange, if_neg (by decide)]
  split
  case isTrue => rfl
  case isFalse hpos =>
    split
    case isTrue hzero =>
      rw [hzero]
      rfl
    case isFalse hne => simp

theorem toNat_toIntcs_le {n : ℕ} (h : ¬ toIntcs n < 0) : (toIntcs n).toNat ≤ n := by
  by_cases hfits : n ≤ intcsMax
  · rw [toIntcs_of_le hfits, Int.toNat_natCast]
  · rcases toIntcs_of_lt (Nat.lt_of_not_le hfits) with hneg | ⟨-, hle⟩
    · exact absurd hneg h
    · omega

/-! ### UTF-16 -/

section Utf16

variable (e : Model.UnicodeEncoding) {data : List UInt8} {tail i : ℕ}

theorem units_window16 (htail : tail ≤ data.length) (hi : i + 1 < tail) :
    (word16 e.bigEndian).units (window data tail i) =
        UInt16.ofNat (e.readUnit data i) ::
          (word16 e.bigEndian).units (window data tail (i + 2)) ∧
      e.readUnit data i < 2 ^ 16 := by
  have h0 := (data.getD i 0).toNat_lt
  have h1 := (data.getD (i + 1) 0).toNat_lt
  have hlength := length_window htail i
  have hwindow : window data tail i =
      data.getD i 0 :: data.getD (i + 1) 0 :: window data tail (i + 2) := by
    rw [window_cons htail (by omega) 0, window_cons htail hi 0]
  have hget : e.readUnit data i = ofBytes (ordered e.bigEndian ((window data tail i).take 2)) := by
    rw [hwindow, readUnit]
    cases e.bigEndian with
    | false =>
      rw [if_neg Bool.false_ne_true, shiftLeft_or _ h0]
      change _ = (data.getD i 0).toNat + 256 * ((data.getD (i + 1) 0).toNat + 256 * 0)
      omega
    | true =>
      rw [if_pos rfl, shiftLeft_or _ h1]
      change _ = (data.getD (i + 1) 0).toNat + 256 * ((data.getD i 0).toNat + 256 * 0)
      omega
  have hwidth : (word16 e.bigEndian).width ≤ (window data tail i).length := by
    rw [hlength]
    change 2 ≤ tail - i
    omega
  refine ⟨?_, ?_⟩
  · rw [(word16 e.bigEndian).units_of_le hwidth, drop_window, hget]
    rfl
  · grind [length_ordered, ofBytes_lt]

theorem decodeUnit16_eq (hfallback : e.decoderFallback = replacementText)
    (htail : tail ≤ data.length) (hi : i + 1 < tail) (out : List UInt8) :
    e.decodeUnit data i tail out =
      (i + ((utf16.bytes (word16 e.bigEndian)).step (unitwise (word16 e.bigEndian))
          (window data tail i)).2,
        out ++ utf8.encode ((utf16.bytes (word16 e.bigEndian)).step
          (unitwise (word16 e.bigEndian)) (window data tail i)).1) := by
  obtain ⟨hunits, hlt⟩ := units_window16 e htail hi
  have htoNat := toNat_ofNat hlt
  have hbytes := utf16.bytes_read? (word16 e.bigEndian) (window data tail i)
  rw [hunits] at hbytes
  -- what is read settles the step
  have hsome : ∀ c n, utf16.read? (UInt16.ofNat (e.readUnit data i) ::
      (word16 e.bigEndian).units (window data tail (i + 2))) = some (c, n) →
      (utf16.bytes (word16 e.bigEndian)).step (unitwise (word16 e.bigEndian))
        (window data tail i) = (c, n * 2) := by
    intro c n hread
    rw [hread, Option.map_some] at hbytes
    exact step_of_read? _ _ hbytes
  have hnone : utf16.read? (UInt16.ofNat (e.readUnit data i) ::
      (word16 e.bigEndian).units (window data tail (i + 2))) = none →
      (utf16.bytes (word16 e.bigEndian)).step (unitwise (word16 e.bigEndian))
        (window data tail i) = (0xFFFD, 2) := by
    intro hread
    rw [hread, Option.map_none] at hbytes
    exact step_of_not_read? _ _ hbytes
  rw [read?_cons] at hsome hnone
  have hhigh : IsHigh (UInt16.ofNat (e.readUnit data i)) ↔
      0xD800 ≤ e.readUnit data i ∧ e.readUnit data i ≤ 0xDBFF := by
    rw [isHigh_iff, htoNat]
    omega
  have hlow : IsLow (UInt16.ofNat (e.readUnit data i)) ↔
      0xDC00 ≤ e.readUnit data i ∧ e.readUnit data i ≤ 0xDFFF := by
    rw [isLow_iff, htoNat]
    omega
  rw [decodeUnit]
  by_cases h1 : 0xD800 ≤ e.readUnit data i ∧ e.readUnit data i ≤ 0xDBFF
  · rw [if_pos (hhigh.mpr h1)] at hsome hnone
    rw [if_pos h1]
    by_cases h2 : i + 2 + 1 < tail
    · obtain ⟨hunits2, hlt2⟩ := units_window16 e htail h2
      have htoNat2 := toNat_ofNat hlt2
      rw [hunits2, List.head?_cons, Option.bind_some] at hsome hnone
      have hlow2 : IsLow (UInt16.ofNat (e.readUnit data (i + 2))) ↔
          0xDC00 ≤ e.readUnit data (i + 2) ∧ e.readUnit data (i + 2) ≤ 0xDFFF := by
        rw [isLow_iff, htoNat2]
        omega
      rw [if_pos h2]
      by_cases h3 : 0xDC00 ≤ e.readUnit data (i + 2) ∧ e.readUnit data (i + 2) ≤ 0xDFFF
      · rw [if_pos (hlow2.mpr h3)] at hsome
        have hlt3 : e.readUnit data (i + 2) - 0xDC00 < 2 ^ 10 := by omega
        have hpair : 0x10000 + ((e.readUnit data i - 0xD800) <<< 10 |||
            (e.readUnit data (i + 2) - 0xDC00)) =
            pair (UInt16.ofNat (e.readUnit data i))
              (UInt16.ofNat (e.readUnit data (i + 2))) := by
          rw [shiftLeft_or _ hlt3]
          unfold pair
          rw [htoNat, htoNat2]
          omega
        have hscalar := (scalar_pair (hhigh.mpr h1) (hlow2.mpr h3)).1
        rw [if_pos h3, hsome _ _ rfl, hpair, appendUtf8Scalar_eq out hscalar.lt]
        rfl
      · rw [if_neg (fun h => h3 (hlow2.mp h))] at hnone
        rw [if_neg h3, hnone rfl, hfallback]
        rfl
    · have hnil : (word16 e.bigEndian).units (window data tail (i + 2)) = [] := by
        apply (word16 e.bigEndian).units_of_lt
        rw [length_window htail]
        change tail - (i + 2) < 2
        omega
      rw [hnil] at hnone
      rw [if_neg h2, hnone rfl, hfallback]
      rfl
  · rw [if_neg (fun h => h1 (hhigh.mp h))] at hsome hnone
    rw [if_neg h1]
    by_cases h2 : 0xDC00 ≤ e.readUnit data i ∧ e.readUnit data i ≤ 0xDFFF
    · rw [if_pos (hlow.mpr h2)] at hnone
      rw [if_pos h2, hnone rfl, hfallback]
      rfl
    · rw [if_neg (fun h => h2 (hlow.mp h))] at hsome
      rw [if_neg h2, hsome _ _ rfl, htoNat, appendUtf8Scalar_eq out (by omega)]

theorem encode16_mark : utf16.encode 0xFEFF = [UInt16.ofNat 0xFEFF] :=
  encode_one (c := 0xFEFF) (by decide)

theorem startsWithMark16_iff (htail : tail ≤ data.length) :
    StartsWithMark utf16 (word16 e.bigEndian) (window data tail 0) ↔
      2 ≤ tail - 0 ∧ e.readUnit data 0 = 0xFEFF := by
  have hlength := length_window htail 0
  rw [startsWithMark_unit_iff _ _ encode16_mark, hlength]
  refine and_congr_right fun hwidth => ?_
  have hi : 0 + 1 < tail := hwidth
  obtain ⟨hunits, hlt⟩ := units_window16 e htail hi
  rw [(word16 e.bigEndian).units_of_le (by rw [hlength]; exact hwidth)] at hunits
  rw [(List.cons.inj hunits).1, ← UInt16.toNat_inj, toNat_ofNat hlt,
    toNat_ofNat (by decide)]

theorem loop16_eq (hfallback : e.decoderFallback = replacementText) (htail : tail ≤ data.length)
    (start : ℕ) :
    (do
      let (i, out) ← Run.whileLoop (fun p : ℕ × List UInt8 => decide (p.1 + 1 < tail))
        (fun p => pure (e.decodeUnit data p.1 tail p.2)) tail (start, [])
      pure (if i < tail then appendDecoderFallback out e.decoderFallback else out) :
        Run Exception (List UInt8)) =
      pure (textOf utf16 (word16 e.bigEndian) (window data tail start)) := by
  simp only [appendDecoderFallback, hfallback]
  exact loop_eq utf16 (word16 e.bigEndian) rfl htail
    (fun p => pure (e.decodeUnit data p.1 tail p.2))
    (fun i out hi => congrArg pure (decodeUnit16_eq e hfallback htail hi out))
    tail start [] (Nat.sub_le _ _)

theorem getString16_eq (hfallback : e.decoderFallback = replacementText) (bytes : List UInt8) :
    e.getStringOf bytes = decodeVector utf16 (word16 e.bigEndian) bytes := by
  rw [getStringOf, getString,
    checkedRawDecodeRange_vector, decodeVector]
  split
  case isTrue => rfl
  case isFalse hpos =>
    have htail := toNat_toIntcs_le hpos
    have hmark := startsWithMark16_iff e htail
    rw [pure_bind]
    refine (loop16_eq e hfallback htail _).trans
      (congrArg pure (textOf_start utf16 _ encode16_mark ?_))
    split
    case isTrue hread => exact Or.inr ⟨rfl, hmark.mpr hread⟩
    case isFalse hread => exact Or.inl ⟨rfl, fun h => hread (hmark.mp h)⟩

end Utf16

/-! ### UTF-32 -/

section Utf32

variable (e : UTF32Encoding) {data : List UInt8} {tail i : ℕ}

theorem fields_bytes (a : ℕ) {b c d : ℕ} (hb : b < 2 ^ 8) (hc : c < 2 ^ 8) (hd : d < 2 ^ 8) :
    a <<< 24 ||| b <<< 16 ||| c <<< 8 ||| d = ((a * 256 + b) * 256 + c) * 256 + d := by
  grind [shiftLeft_or]

theorem units_window32 (htail : tail ≤ data.length) (hi : i + 3 < tail) :
    (word32 e.bigEndian).units (window data tail i) =
        UInt32.ofNat (e.readUnit data i) ::
          (word32 e.bigEndian).units (window data tail (i + 4)) ∧
      e.readUnit data i < 2 ^ 32 := by
  have h0 := (data.getD i 0).toNat_lt
  have h1 := (data.getD (i + 1) 0).toNat_lt
  have h2 := (data.getD (i + 2) 0).toNat_lt
  have h3 := (data.getD (i + 3) 0).toNat_lt
  have hlength := length_window htail i
  have hwindow : window data tail i = data.getD i 0 :: data.getD (i + 1) 0 ::
      data.getD (i + 2) 0 :: data.getD (i + 3) 0 :: window data tail (i + 4) := by
    grind [window_cons]
  have hget : e.readUnit data i = ofBytes (ordered e.bigEndian ((window data tail i).take 4)) := by
    rw [hwindow, UTF32Encoding.readUnit]
    cases e.bigEndian with
    | false =>
      have hswap : ∀ a b c d : ℕ, a ||| b ||| c ||| d = d ||| c ||| b ||| a := by
        intro a b c d
        ac_rfl
      rw [if_pos Bool.false_ne_true, hswap, fields_bytes _ h2 h1 h0]
      change _ = (data.getD i 0).toNat + 256 * ((data.getD (i + 1) 0).toNat + 256 *
        ((data.getD (i + 2) 0).toNat + 256 * ((data.getD (i + 3) 0).toNat + 256 * 0)))
      omega
    | true =>
      rw [if_neg (not_not.mpr rfl), fields_bytes _ h1 h2 h3]
      change _ = (data.getD (i + 3) 0).toNat + 256 * ((data.getD (i + 2) 0).toNat + 256 *
        ((data.getD (i + 1) 0).toNat + 256 * ((data.getD i 0).toNat + 256 * 0)))
      omega
  have hwidth : (word32 e.bigEndian).width ≤ (window data tail i).length := by
    rw [hlength]
    change 4 ≤ tail - i
    omega
  refine ⟨?_, ?_⟩
  · rw [(word32 e.bigEndian).units_of_le hwidth, drop_window, hget]
    rfl
  · grind [length_ordered, ofBytes_lt]

theorem toNat_ofNat32 {n : ℕ} (h : n < 2 ^ 32) : (UInt32.ofNat n).toNat = n := by
  rw [UInt32.toNat_ofNat', Nat.mod_eq_of_lt h]

theorem decodeUnit32_eq (hfallback : e.decoderFallback = replacementText)
    (htail : tail ≤ data.length) (hi : i + 3 < tail) (out : List UInt8) :
    (i + 4, e.decodeUnit data i out) =
      (i + ((utf32.bytes (word32 e.bigEndian)).step (unitwise (word32 e.bigEndian))
          (window data tail i)).2,
        out ++ utf8.encode ((utf32.bytes (word32 e.bigEndian)).step
          (unitwise (word32 e.bigEndian)) (window data tail i)).1) := by
  obtain ⟨hunits, hlt⟩ := units_window32 e htail hi
  have hbytes := utf32.bytes_read? (word32 e.bigEndian) (window data tail i)
  rw [hunits, Utf32.read?_cons, toNat_ofNat32 hlt] at hbytes
  rw [UTF32Encoding.decodeUnit]
  by_cases hscalar : Scalar (e.readUnit data i)
  · have hgood := not_not.mpr hscalar
    rw [not_scalar_iff] at hgood
    rw [if_pos hscalar, Option.map_some] at hbytes
    rw [if_neg hgood, step_of_read? _ _ hbytes, appendUtf8Scalar_eq out hscalar.lt]
    rfl
  · rw [if_neg hscalar, Option.map_none] at hbytes
    have hstep : (utf32.bytes (word32 e.bigEndian)).step (unitwise (word32 e.bigEndian))
        (window data tail i) = (0xFFFD, 4) := step_of_not_read? _ _ hbytes
    rw [if_pos (not_scalar_iff.mp hscalar), hstep, hfallback]
    rfl

theorem encode32_mark : utf32.encode 0xFEFF = [UInt32.ofNat 0xFEFF] := rfl

theorem startsWithMark32_iff (htail : tail ≤ data.length) :
    StartsWithMark utf32 (word32 e.bigEndian) (window data tail 0) ↔
      4 ≤ tail - 0 ∧ e.readUnit data 0 = 0xFEFF := by
  have hlength := length_window htail 0
  rw [startsWithMark_unit_iff _ _ encode32_mark, hlength]
  refine and_congr_right fun hwidth => ?_
  have hi : 0 + 3 < tail := hwidth
  obtain ⟨hunits, hlt⟩ := units_window32 e htail hi
  rw [(word32 e.bigEndian).units_of_le (by rw [hlength]; exact hwidth)] at hunits
  rw [(List.cons.inj hunits).1, ← UInt32.toNat_inj, toNat_ofNat32 hlt, toNat_ofNat32 (by decide)]

theorem loop32_eq (hfallback : e.decoderFallback = replacementText) (htail : tail ≤ data.length)
    (start : ℕ) :
    (do
      let (i, result) ← Run.whileLoop (fun p : ℕ × List UInt8 => decide (p.1 + 3 < tail))
        (fun p => pure (p.1 + 4, e.decodeUnit data p.1 p.2)) tail (start, [])
      pure (if i < tail then appendDecoderFallback result e.decoderFallback else result) :
        Run Exception (List UInt8)) =
      pure (textOf utf32 (word32 e.bigEndian) (window data tail start)) := by
  simp only [appendDecoderFallback, hfallback]
  exact loop_eq utf32 (word32 e.bigEndian) rfl htail
    (fun p => pure (p.1 + 4, e.decodeUnit data p.1 p.2))
    (fun i out hi => congrArg pure (decodeUnit32_eq e hfallback htail hi out))
    tail start [] (Nat.sub_le _ _)

theorem getString32_eq (hfallback : e.decoderFallback = replacementText) (bytes : List UInt8) :
    e.getStringOf bytes = decodeVector utf32 (word32 e.bigEndian) bytes := by
  rw [UTF32Encoding.getStringOf, UTF32Encoding.getString, checkedRawDecodeRange_vector,
    decodeVector]
  split
  case isTrue => rfl
  case isFalse hpos =>
    have htail := toNat_toIntcs_le hpos
    have hmark := startsWithMark32_iff e htail
    rw [pure_bind]
    refine (loop32_eq e hfallback htail _).trans
      (congrArg pure (textOf_start utf32 _ encode32_mark ?_))
    split
    case isTrue hread => exact Or.inr ⟨rfl, hmark.mpr hread⟩
    case isFalse hread => exact Or.inl ⟨rfl, fun h => hread (hmark.mp h)⟩

end Utf32

/-! ## What is kept -/

theorem step16_le (bigEndian : Bool) (s : List UInt8) :
    ((utf16.bytes (word16 bigEndian)).step (unitwise (word16 bigEndian)) s).2 ≤ 4 := by
  cases hread : (utf16.bytes (word16 bigEndian)).read? s with
  | none =>
    rw [step_of_not_read? _ _ hread]
    change 2 ≤ 4
    decide
  | some r =>
    obtain ⟨-, hn, -⟩ := of_read? _ hread
    have hlength : ((utf16.bytes (word16 bigEndian)).encode r.1).length =
        (encode r.1).length * 2 := (word16 bigEndian).length_flatMap_put _
    rw [length_encode] at hlength
    rw [step_of_read? _ _ hread, hn, hlength]
    split <;> decide

theorem step32_le (bigEndian : Bool) (s : List UInt8) :
    ((utf32.bytes (word32 bigEndian)).step (unitwise (word32 bigEndian)) s).2 ≤ 4 := by
  cases hread : (utf32.bytes (word32 bigEndian)).read? s with
  | none =>
    rw [step_of_not_read? _ _ hread]
    change 4 ≤ 4
    decide
  | some r =>
    obtain ⟨-, hn, -⟩ := of_read? _ hread
    have hlength : ((utf32.bytes (word32 bigEndian)).encode r.1).length = 1 * 4 :=
      (word32 bigEndian).length_flatMap_put _
    rw [step_of_read? _ _ hread, hn, hlength]

theorem keepsTextIff {β : Type} {code : ScalarCode β} {layout : ByteLayout β}
    (hsync : code.Synchronizes)
    (hbound : ∀ s, ((code.bytes layout).step (unitwise layout) s).2 ≤ 4)
    {getBytes getString : List UInt8 → Run Exception (List UInt8)}
    (hGetBytes : ∀ s, getBytes s = pure ((code.bytes layout).encodeAll (utf8.replaced 0 s)))
    (hGetString : ∀ bytes, getString bytes = decodeVector code layout bytes) :
    KeepsTextIff code layout getBytes getString where
  roundTrip := by
    intro s hs
    have hscalars := utf8.scalar_of_mem_replaced 0 (s := s)
    have hmark : (utf8.replaced 0 s).head? = some 0xFEFF ↔ utf8.encode 0xFEFF <+: s :=
      utf8.head?_replaced_iff 0 (Or.inr ⟨by decide, by decide⟩) (by decide)
    have hiff := decodeVector_encodeAll_iff code layout hbound hscalars
    rw [(utf8.encodeAll_replaced_iff 0).mpr hs, Ne, hmark] at hiff
    rw [hGetBytes, pure_bind, hGetString, hiff]
  inBuffer := fun s => ⟨_, hGetBytes s⟩
  decodes := by
    intro bytes
    rw [← decodeVector_eq_iff code layout hbound, ← hGetString]
    constructor
    · rintro ⟨out, hout, hdecodes⟩
      rw [hout, hdecodes.text]
    · intro h
      exact ⟨_, h, (decodes_iff code layout hsync).mpr rfl⟩
  wellFormed := by
    intro bytes out h
    rw [hGetString] at h
    exact decodeVector_wellFormed code layout h

/-- **What UTF-16 and UTF-32 keep**: in both byte orders, a well-formed string comes back from its
bytes when it does not start with U+FEFF and the bytes are no more than the count can hold, and only
then; bytes are decoded without a loss under the same condition.  `getBytes` stays inside its
buffer for any string, and `getString` returns nothing but well-formed text. -/
theorem encodings_keep_text (bigEndian byteOrderMark : Bool) :
    KeepsTextIff utf16 (word16 bigEndian)
      (construct bigEndian byteOrderMark).getBytes
      (construct bigEndian byteOrderMark).getStringOf ∧
    KeepsTextIff utf32 (word32 bigEndian)
      (UTF32Encoding.construct bigEndian byteOrderMark).getBytes
      (UTF32Encoding.construct bigEndian byteOrderMark).getStringOf :=
  ⟨keepsTextIff synchronizes (step16_le bigEndian) (getBytes16_eq _) (getString16_eq _ rfl),
    keepsTextIff Utf32.synchronizes (step32_le bigEndian) (getBytes32_eq _) (getString32_eq _ rfl)⟩

/-- A mark in front of a letter is lost: U+FEFF is encoded, and `getString` skips it. -/
theorem mark_is_dropped :
    utf8.WellFormed [0xEF, 0xBB, 0xBF, 0x41] ∧
      ((construct false false).getBytes [0xEF, 0xBB, 0xBF, 0x41] >>=
        (construct false false).getStringOf) = pure [0x41] ∧
      ((construct false false).getBytes [0xEF, 0xBB, 0xBF, 0x41] >>=
        (construct false false).getStringOf) ≠
          pure [0xEF, 0xBB, 0xBF, 0x41] := by
  have hdropped : ((construct false false).getBytes
      [0xEF, 0xBB, 0xBF, 0x41] >>=
      (construct false false).getStringOf) = pure [0x41] := by
    decide
  refine ⟨⟨[0xFEFF, 0x41], by decide, by decide⟩, hdropped, ?_⟩
  decide

end SharpRuntime.Analysis.UnicodeEncoding
