import SharpRuntime.Interface.HashProgram

/-!
# The sums of `Adler32`

`update` reduces its two sums once in a block of at most 5552 bytes.  From reduced sums no sum of
such a block wraps: the bound is that of the class's comment, and it leaves no room for one byte
more (`addBytes_eq`).  The sums are congruent to those of all the bytes so far, whatever the calls
of `append` that brought them.
-/

set_option autoImplicit false
set_option maxRecDepth 20000

namespace SharpRuntime.Analysis.AdlerSums

open Machine Interface Model Model.Adler32

/-- What the second sum gains from some bytes, when the first one starts at `a`. -/
def gained (a : ℕ) : List UInt8 → ℕ
  | [] => 0
  | b :: s => a + b.toNat + gained (a + b.toNat) s

/-- Within a block neither sum wraps. -/
theorem addBytes_eq {s : List UInt8} {a c : ℕ} (hfirst : a + 255 * s.length < 2 ^ 32)
    (hsecond : 2 * (c + s.length * a) + 255 * (s.length * (s.length + 1)) < 2 ^ 33) :
    s.foldlM addByte (a, c) = pure (a + (s.map UInt8.toNat).sum, c + gained a s) := by
  induction s generalizing a c with
  | nil => rfl
  | cons b s ih =>
    have hb : b.toNat < 256 := b.toNat_lt
    rw [List.length_cons] at hfirst hsecond
    have hfits : c + (a + b.toNat) < 2 ^ 32 := by nlinarith
    have hstep : addByte (a, c) b = pure (a + b.toNat, c + (a + b.toNat)) := by
      grind [addByte, Run.word_add]
    rw [List.foldlM_cons, hstep, pure_bind, ih (by omega) (by nlinarith), List.map_cons,
      List.sum_cons, gained]
    simp only [Nat.add_assoc]

theorem gained_modEq {a a' : ℕ} (h : a ≡ a' [MOD modBase]) (s : List UInt8) :
    gained a s ≡ gained a' s [MOD modBase] := by
  induction s generalizing a a' with
  | nil => exact Nat.ModEq.refl 0
  | cons b s ih => exact (h.add_right _).add (ih (h.add_right _))

variable (s : List UInt8)

theorem byteSum_append (t : List UInt8) :
    byteSum (s ++ t) = byteSum s + (t.map UInt8.toNat).sum := by
  rw [byteSum, byteSum, List.map_append, List.sum_append, Nat.add_assoc]

theorem sumOfSums_concat (b : UInt8) : sumOfSums (s ++ [b]) = sumOfSums s + byteSum (s ++ [b]) := by
  have hlength : (s ++ [b]).length = s.length + 1 := List.length_append
  rw [sumOfSums, hlength, List.range_succ, List.map_append, List.sum_append, List.map_singleton,
    List.sum_singleton, List.take_of_length_le hlength.le, sumOfSums]
  congr 2
  refine List.map_congr_left fun i hi => ?_
  rw [List.take_append_of_le_length (List.mem_range.mp hi)]

theorem sumOfSums_append (t : List UInt8) :
    sumOfSums (s ++ t) = sumOfSums s + gained (byteSum s) t := by
  induction t generalizing s with
  | nil => rw [List.append_nil, gained, Nat.add_zero]
  | cons b t ih =>
    have hsplit : s ++ b :: t = s ++ [b] ++ t := (List.append_cons s b t)
    rw [hsplit, ih, sumOfSums_concat, byteSum_append, gained, List.map_singleton,
      List.sum_singleton, Nat.add_assoc]

theorem addBlock_eq {source : List UInt8} {n : ℕ} (hn : n ≤ source.length) :
    addBlock ⟨byteSum s % modBase, sumOfSums s % modBase, source, n⟩ =
      pure ⟨byteSum (s ++ source.take (min n 5552)) % modBase,
        sumOfSums (s ++ source.take (min n 5552)) % modBase, source.drop (min n 5552),
        (n - min n 5552 : ℕ)⟩ := by
  have hk : (if (n : ℤ) < nMax then (n : ℤ) else nMax) = (min n 5552 : ℕ) := by
    rw [nMax]
    split <;> omega
  have ha : byteSum s % modBase < 65521 := Nat.mod_lt _ (by decide)
  have hc : sumOfSums s % modBase < 65521 := Nat.mod_lt _ (by decide)
  have hlength : (source.take (min n 5552)).length ≤ 5552 := by
    rw [List.length_take]
    omega
  rw [addBlock]
  dsimp only
  rw [hk, Int.toNat_natCast, addBytes_eq (by omega) (by nlinarith), pure_bind]
  have hfirst : (byteSum s % modBase + ((source.take (min n 5552)).map UInt8.toNat).sum) % modBase =
      byteSum (s ++ source.take (min n 5552)) % modBase := by
    rw [byteSum_append, Nat.mod_add_mod]
  have hsecond : (sumOfSums s % modBase +
      gained (byteSum s % modBase) (source.take (min n 5552))) % modBase =
      sumOfSums (s ++ source.take (min n 5552)) % modBase := by
    rw [sumOfSums_append, Nat.mod_add_mod]
    exact (gained_modEq (Nat.mod_modEq _ _) _).add_left _
  rw [hfirst, hsecond, ← Nat.cast_sub (Nat.min_le_left n 5552)]

theorem blocks_eq {source : List UInt8} {n fuel : ℕ} (hn : n ≤ source.length) (hfuel : n ≤ fuel) :
    ∃ rest, Run.whileLoop (fun s : Sums => decide (0 < s.length)) addBlock fuel
        ⟨byteSum s % modBase, sumOfSums s % modBase, source, n⟩ =
      pure ⟨byteSum (s ++ source.take n) % modBase, sumOfSums (s ++ source.take n) % modBase, rest,
        0⟩ := by
  induction fuel generalizing s source n with
  | zero =>
    obtain rfl : n = 0 := by omega
    refine ⟨source, ?_⟩
    rw [List.take_zero, List.append_nil]
    exact Run.whileLoop_of_not rfl
  | succ fuel ih =>
    by_cases hpos : 0 < n
    · have hleft : n - min n 5552 ≤ (source.drop (min n 5552)).length := by
        rw [List.length_drop]
        omega
      obtain ⟨rest, hrest⟩ := ih (s ++ source.take (min n 5552)) hleft (by omega)
      refine ⟨rest, ?_⟩
      have htake : source.take (min n 5552) ++ (source.drop (min n 5552)).take (n - min n 5552) =
          source.take n := by
        rw [← List.take_add, Nat.add_sub_cancel' (Nat.min_le_left n 5552)]
      rw [List.append_assoc, htake] at hrest
      have hgo : decide ((0 : ℤ) < n) = true := decide_eq_true (Int.natCast_pos.mpr hpos)
      rw [Run.whileLoop, if_pos hgo, addBlock_eq s hn, pure_bind, hrest]
    · obtain rfl : n = 0 := by omega
      refine ⟨source, ?_⟩
      rw [List.take_zero, List.append_nil]
      exact Run.whileLoop_of_not rfl

theorem toNat_packed {a c : ℕ} (ha : a < 65521) (hc : c < 65521) :
    ((UInt32.ofNat c <<< 16) ||| UInt32.ofNat a).toNat = c * 2 ^ 16 + a := by
  have hor : c <<< 16 ||| a = c * 2 ^ 16 + a := shiftLeft_or c (by omega)
  rw [UInt32.toNat_or, UInt32.toNat_shiftLeft, UInt32.toNat_ofNat', UInt32.toNat_ofNat',
    Nat.mod_eq_of_lt (by omega : c < 2 ^ 32), Nat.mod_eq_of_lt (by omega : a < 2 ^ 32)]
  have hshift : (16 : UInt32).toNat % 32 = 16 := rfl
  have hfits : c <<< 16 < 2 ^ 32 := by
    omega
  rw [hshift, Nat.mod_eq_of_lt hfits, hor]

theorem unpacked : (adler32 s &&& 0xFFFF).toNat = byteSum s % modBase ∧
      ((adler32 s >>> 16) &&& 0xFFFF).toNat = sumOfSums s % modBase := by
  have ha : byteSum s % 65521 < 65521 := Nat.mod_lt _ (by decide)
  have hc : sumOfSums s % 65521 < 65521 := Nat.mod_lt _ (by decide)
  have hpacked : (adler32 s).toNat = sumOfSums s % 65521 * 2 ^ 16 + byteSum s % 65521 :=
    toNat_packed ha hc
  have hlow : (adler32 s &&& 0xFFFF).toNat = (adler32 s).toNat % 2 ^ 16 :=
    Nat.and_two_pow_sub_one_eq_mod _ 16
  have hhigh : ((adler32 s >>> 16) &&& 0xFFFF).toNat = (adler32 s >>> 16).toNat % 2 ^ 16 :=
    Nat.and_two_pow_sub_one_eq_mod _ 16
  have hshift : (adler32 s >>> 16).toNat = (adler32 s).toNat / 2 ^ 16 :=
    Nat.shiftRight_eq_div_pow _ 16
  rw [hlow, hhigh, hshift, hpacked, modBase]
  omega

theorem update_eq {bytes : List UInt8} {n : ℕ} (hn : n ≤ bytes.length) :
    update (adler32 s) (some bytes) n = pure (adler32 (s ++ bytes.take n)) := by
  rw [update, validateSource_some, pure_bind]
  by_cases hzero : n = 0
  · grind
  · obtain ⟨rest, hrest⟩ := @blocks_eq s bytes n n hn le_rfl
    obtain ⟨hlow, hhigh⟩ := unpacked s
    rw [if_neg (by omega), Option.getD_some, Run.observe_eq_pure (by omega), pure_bind]
    dsimp only
    rw [hlow, hhigh, Int.toNat_natCast, hrest, pure_bind]
    rfl

theorem append_holds {s : List UInt8} {source : Option (List UInt8)} {length : ℤ}
    (hread : Readable source length) :
    (Adler32.append ⟨adler32 s⟩ source length).catching ⟨adler32 s⟩ =
      pure ⟨adler32 (s ++ sourceBytes source length)⟩ := by
  obtain ⟨e, hthrows, hnone⟩ | ⟨rfl, rfl⟩ | ⟨bytes, n, rfl, rfl, hlength⟩ := source_cases hread
  · rw [Adler32.append, update, hthrows, hnone, List.append_nil]
    rfl
  · have hbytes : sourceBytes none 0 = [] := rfl
    rw [hbytes, List.append_nil]
    rfl
  · rw [Adler32.append, update_eq s hlength, pure_bind]
    rfl

theorem adler32_nil : adler32 [] = initialState := by decide

def Holds (_ : Unit) (s : List UInt8) (h : Adler32) : Prop := h = ⟨adler32 s⟩

theorem computes : adler32Hasher.Computes (fun _ => adler32) (fun _ => True) Holds where
  create _ := by
    rfl
  append := by
    rintro _ s _ source length rfl hread
    exact ⟨_, append_holds hread, rfl⟩
  clone := by
    rintro _ s _ rfl
    rfl
  reset _ _ _ _ := by
    rfl
  current := by
    rintro _ s _ rfl -
    rfl

/-- **The deferred reduction is exact.**  In any program over `Adler32` no sum wraps, and the hashes
are the checks of the bytes, however they were cut into calls; the static `hashToUInt32` gives the
same. -/
theorem adler32_of_program (calls : List (HashCall Unit)) (hproper : ∀ call ∈ calls, call.Proper) :
    (∃ pool, adler32Hasher.run calls [] =
      pure (pool, (askedBy calls []).map fun x => adler32 x.2)) ∧
    ∀ bytes : List UInt8, hashToUInt32 (some bytes) bytes.length = pure (adler32 bytes) := by
  constructor
  · obtain ⟨pool, hrun, -⟩ :=
      Hasher.run_eq computes List.Forall₂.nil hproper fun _ _ => trivial
    exact ⟨pool, hrun⟩
  · intro bytes
    have hupdate := update_eq [] (le_refl bytes.length)
    rwa [List.take_length, List.nil_append, adler32_nil] at hupdate

/-- Three bytes in two calls, and the hash in between. -/
theorem adler32_of_program_pieces :
    ∃ pool, adler32Hasher.run
      [.create (), .append 0 (some [0x61]) 1, .current 0, .append 0 (some [0x62, 0x63]) 2,
        .current 0] [] = pure (pool, [0x00620062, 0x024D0127]) := by
  obtain ⟨pool, hrun⟩ := (adler32_of_program
    [.create (), .append 0 (some [0x61]) 1, .current 0, .append 0 (some [0x62, 0x63]) 2, .current 0]
    (by
      intro call hcall
      simp only [List.mem_cons, List.not_mem_nil, or_false] at hcall
      rcases hcall with rfl | rfl | rfl | rfl | rfl
      · trivial
      · rintro bytes ⟨⟩
        decide
      · trivial
      · rintro bytes ⟨⟩
        decide
      · trivial)).1
  have hasked : (askedBy [.create (), .append 0 (some [0x61]) 1, .current 0,
      .append 0 (some [0x62, 0x63]) 2, .current 0] []).map (fun x => adler32 x.2) =
      [0x00620062, 0x024D0127] := by decide +kernel
  rw [hasked] at hrun
  exact ⟨pool, hrun⟩

end SharpRuntime.Analysis.AdlerSums
