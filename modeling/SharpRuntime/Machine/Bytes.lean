import SharpRuntime.Machine.ScalarCode
import SharpRuntime.Machine.Printed

/-!
# Bytes, bit fields and windows

A property of all bytes is decided by checking 256 of them.  Fields of bits are masked off with
`&` and put together with `<<` and `|`; on numbers these are remainders, multiples and sums.  The
window of a buffer is what a reader with a position and an end may look at.
-/

set_option autoImplicit false

namespace Machine

instance decidableForallByte {P : UInt8 → Prop} [DecidablePred P] : Decidable (∀ c, P c) :=
  decidable_of_iff (∀ n : Fin 256, P (UInt8.ofNat n))
    ⟨fun h c => UInt8.ofNat_toNat (x := c) ▸ h ⟨c.toNat, c.toNat_lt⟩, fun h _ => h _⟩

variable {n w : ℕ}

theorem shiftLeft_or (m : ℕ) (h : n < 2 ^ w) : m <<< w ||| n = m * 2 ^ w + n := by
  rw [← Nat.shiftLeft_add_eq_or_of_lt h, Nat.shiftLeft_eq]

theorem or_add (m : ℕ) (h : n < 2 ^ w) : m * 2 ^ w ||| n = m * 2 ^ w + n := by
  rw [← Nat.shiftLeft_eq, shiftLeft_or m h, Nat.shiftLeft_eq]

theorem toList_eq_ofFn {β : Type} (v : Vector β n) : v.toList = List.ofFn v.get :=
  List.ext_getElem (by simp) fun i _ _ => by simp [Vector.get]

section Window

variable {β : Type}

def window (s : List β) (size i : ℕ) : List β := (s.take size).drop i

variable {s : List β} {size : ℕ}

theorem length_window (hsize : size ≤ s.length) (i : ℕ) : (window s size i).length = size - i := by
  rw [window, List.length_drop, List.length_take, Nat.min_eq_left hsize]

variable {i : ℕ}

theorem window_cons (hsize : size ≤ s.length) (hi : i < size) (d : β) :
    window s size i = s.getD i d :: window s size (i + 1) := by
  have hlength : i < (s.take size).length := by
    rw [List.length_take, Nat.min_eq_left hsize]
    exact hi
  rw [window, List.drop_eq_getElem_cons hlength, List.getElem_take,
    List.getD_eq_getElem _ _ (by omega), window]

theorem window_nil (hsize : size ≤ s.length) (hi : ¬ i < size) : window s size i = [] := by
  rw [← List.length_eq_zero_iff, length_window hsize]
  omega

theorem drop_window (i n : ℕ) : (window s size i).drop n = window s size (i + n) := by
  rw [window, List.drop_drop, window]

end Window

/-!
# Units as bytes

A layout writes a unit as a fixed number of bytes.  A code whose units are laid out is a code over
bytes; what it cannot read it replaces a unit at a time, and a run of scalars that starts at a unit
is kept whatever stands around it.
-/

/-- How units are written as bytes, all with the same number of them. -/
structure ByteLayout (β : Type) where
  width : ℕ
  put : β → List UInt8
  get : List UInt8 → β
  width_pos : 0 < width
  length_put : ∀ u, (put u).length = width
  get_put : ∀ u rest, get (put u ++ rest) = u
  put_get : ∀ s, width ≤ s.length → put (get s) = s.take width

namespace ByteLayout

variable {β : Type} (layout : ByteLayout β)

/-- The units of a sequence of bytes; a rest too short for a unit is left out. -/
def units (s : List UInt8) : List β :=
  if layout.width ≤ s.length then layout.get s :: units (s.drop layout.width) else []
termination_by s.length
decreasing_by
  have hpos := layout.width_pos
  rw [List.length_drop]
  omega

variable {s : List UInt8}

theorem units_of_lt (h : s.length < layout.width) : layout.units s = [] := by
  rw [units, if_neg (by omega)]

theorem units_of_le (h : layout.width ≤ s.length) :
    layout.units s = layout.get s :: layout.units (s.drop layout.width) := by
  rw [units, if_pos h]

theorem units_put (u : β) (s : List UInt8) :
    layout.units (layout.put u ++ s) = u :: layout.units s := by
  have hlength := layout.length_put u
  rw [layout.units_of_le (by rw [List.length_append]; omega), layout.get_put,
    List.drop_left' hlength]

theorem units_flatMap (us : List β) (s : List UInt8) :
    layout.units (us.flatMap layout.put ++ s) = us ++ layout.units s := by
  induction us with
  | nil => rfl
  | cons u us ih =>
    rw [List.flatMap_cons, List.append_assoc, layout.units_put, ih, List.cons_append]

theorem length_flatMap_put (us : List β) :
    (us.flatMap layout.put).length = us.length * layout.width := by
  induction us with
  | nil => exact (Nat.zero_mul _).symm
  | cons u us ih => grind [layout.length_put]

theorem exists_of_units {us : List β} {rest : List β}
    (h : layout.units s = us ++ rest) : ∃ t, s = us.flatMap layout.put ++ t := by
  induction us generalizing s with
  | nil => exact ⟨s, rfl⟩
  | cons u us ih =>
    by_cases hs : layout.width ≤ s.length
    · rw [layout.units_of_le hs, List.cons_append] at h
      obtain ⟨rfl, hrest⟩ := List.cons.inj h
      obtain ⟨t, ht⟩ := ih hrest
      refine ⟨t, ?_⟩
      rw [List.flatMap_cons, layout.put_get s hs, List.append_assoc, ← ht, List.take_append_drop]
    · rw [layout.units_of_lt (by omega)] at h
      cases h

theorem put_prefix_iff {u : β} :
    layout.put u <+: s ↔ layout.width ≤ s.length ∧ layout.get s = u := by
  constructor
  · rintro ⟨rest, rfl⟩
    refine ⟨?_, layout.get_put u rest⟩
    rw [List.length_append, layout.length_put]
    exact Nat.le_add_right _ _
  · rintro ⟨hle, rfl⟩
    rw [layout.put_get s hle]
    exact List.take_prefix _ _

theorem units_ne_nil (h : layout.width ≤ s.length) : layout.units s ≠ [] := by
  rw [layout.units_of_le h]
  exact List.cons_ne_nil _ _

theorem units_append (h : layout.width ∣ s.length) (t : List UInt8) :
    layout.units (s ++ t) = layout.units s ++ layout.units t := by
  have hpos := layout.width_pos
  induction hn : s.length using Nat.strong_induction_on generalizing s with
  | _ n ih =>
    by_cases hs : s = []
    · have hnil : layout.units [] = [] := layout.units_of_lt hpos
      rw [hs, hnil]
      rfl
    · have hle := Nat.le_of_dvd (List.length_pos_iff.mpr hs) h
      have hput := layout.put_get s hle
      have hrest : layout.width ∣ (s.drop layout.width).length := by
        rw [List.length_drop]
        exact Nat.dvd_sub h dvd_rfl
      have hsplit : s ++ t = layout.put (layout.get s) ++ (s.drop layout.width ++ t) := by
        rw [hput, ← List.append_assoc, List.take_append_drop]
      rw [hsplit, layout.units_put, ih _ (by rw [List.length_drop]; omega) hrest rfl,
        layout.units_of_le hle, List.cons_append]

end ByteLayout

namespace ScalarCode

variable {β : Type} (code : ScalarCode β) (layout : ByteLayout β)

def bytes : ScalarCode UInt8 where
  encode c := (code.encode c).flatMap layout.put
  read? s := (code.read? (layout.units s)).map fun r => (r.1, r.2 * layout.width)
  length_encode_pos := by
    intro c
    rw [layout.length_flatMap_put]
    exact Nat.mul_pos (code.length_encode_pos c) layout.width_pos
  read?_encode := by
    intro c hc rest
    rw [layout.units_flatMap, code.read?_encode hc, Option.map_some, layout.length_flatMap_put]
  of_read? := by
    intro s c n h
    obtain ⟨r, hread, hr⟩ := Option.map_eq_some_iff.mp h
    obtain ⟨rfl, rfl⟩ := Prod.mk.inj hr
    obtain ⟨hc, hn, rest, hunits⟩ := code.of_read? hread
    obtain ⟨t, ht⟩ := layout.exists_of_units hunits
    exact ⟨hc, by rw [layout.length_flatMap_put, hn], t, ht⟩

theorem bytes_encodeAll (cs : List ℕ) :
    (code.bytes layout).encodeAll cs = (code.encodeAll cs).flatMap layout.put :=
  List.flatMap_assoc.symm

theorem bytes_read? (s : List UInt8) :
    (code.bytes layout).read? s =
      (code.read? (layout.units s)).map fun r => (r.1, r.2 * layout.width) := rfl

abbrev unitwise : List UInt8 → ℕ := fun _ => layout.width - 1

theorem width_dvd_step (s : List UInt8) :
    layout.width ∣ ((code.bytes layout).step (unitwise layout) s).2 := by
  have hpos := layout.width_pos
  cases hread : code.read? (layout.units s) with
  | none =>
    have hnone : (code.bytes layout).read? s = none := by rw [bytes_read?, hread, Option.map_none]
    rw [step_of_not_read? _ _ hnone, Nat.sub_add_cancel hpos]
  | some r =>
    have hsome : (code.bytes layout).read? s = some (r.1, r.2 * layout.width) := by
      rw [bytes_read?, hread, Option.map_some]
    rw [step_of_read? _ _ hsome]
    exact Nat.dvd_mul_left _ _

/-- A code whose scalars are found again after units that cannot be read: such units do not turn
into a scalar when one follows. -/
def Synchronizes : Prop :=
  ∀ us c rest, us ≠ [] → Scalar c → code.read? us = none →
    code.read? (us ++ (code.encode c ++ rest)) = none

/-- **A run of scalars is kept**, whatever stands before and after it. -/
theorem bytes_replaced_run (hsync : code.Synchronizes) {pre : List UInt8}
    (hpre : layout.width ∣ pre.length) {run : List ℕ} (hrun : ∀ c ∈ run, Scalar c)
    (hne : run ≠ []) (post : List UInt8) :
    (code.bytes layout).replaced (unitwise layout)
        (pre ++ ((code.bytes layout).encodeAll run ++ post)) =
      (code.bytes layout).replaced (unitwise layout) pre ++
        (run ++ (code.bytes layout).replaced (unitwise layout) post) := by
  obtain ⟨c, cs, rfl⟩ := List.exists_cons_of_ne_nil hne
  induction pre using (code.bytes layout).step_induction (unitwise layout) with
  | nil => rw [List.nil_append, replaced_append _ _ hrun, replaced_nil, List.nil_append]
  | step pre hs ih =>
    generalize hrest : (code.bytes layout).encodeAll (c :: cs) ++ post = rest at ih ⊢
    have hle := Nat.le_of_dvd (List.length_pos_iff.mpr hs) hpre
    have hdvd := code.width_dvd_step layout pre
    -- what follows does not change the step
    have hstep : (code.bytes layout).step (unitwise layout) (pre ++ rest) =
          (code.bytes layout).step (unitwise layout) pre ∧
        ((code.bytes layout).step (unitwise layout) pre).2 ≤ pre.length := by
      cases hread : (code.bytes layout).read? pre with
      | some r =>
        rw [step_of_read? _ _ hread, step_of_read? _ _ ((code.bytes layout).read?_append hread rest)]
        exact ⟨rfl, (length_of_read? _ hread).2⟩
      | none =>
        have hunits : code.read? (layout.units pre) = none := by
          rw [bytes_read?, Option.map_eq_none_iff] at hread
          exact hread
        have hnone : (code.bytes layout).read? (pre ++ rest) = none := by
          rw [bytes_read?, layout.units_append hpre, ← hrest, bytes_encodeAll,
            layout.units_flatMap, encodeAll_cons, List.append_assoc,
            hsync _ c _ (layout.units_ne_nil hle) (hrun c List.mem_cons_self) hunits,
            Option.map_none]
        rw [step_of_not_read? _ _ hread, step_of_not_read? _ _ hnone,
          Nat.sub_add_cancel layout.width_pos]
        exact ⟨rfl, hle⟩
    have hdrop : layout.width ∣
        (pre.drop ((code.bytes layout).step (unitwise layout) pre).2).length := by
      rw [List.length_drop]
      exact Nat.dvd_sub hpre hdvd
    have happend : pre ++ rest ≠ [] := List.append_ne_nil_of_left_ne_nil hs rest
    rw [replaced_step _ _ happend, hstep.1, List.drop_append_of_le_length hstep.2, ih hdrop,
      replaced_step _ _ hs]
    rfl

end ScalarCode

def bytesOf : (width n : ℕ) → List UInt8
  | 0, _ => []
  | width + 1, n => UInt8.ofNat n :: bytesOf width (n / 256)

def ofBytes : List UInt8 → ℕ
  | [] => 0
  | b :: s => b.toNat + 256 * ofBytes s

variable (width n : ℕ)

theorem length_bytesOf : (bytesOf width n).length = width := by
  induction width generalizing n with
  | zero => rfl
  | succ width ih => rw [bytesOf, List.length_cons, ih]

theorem bytesOf_eq_map :
    bytesOf width n = (List.range width).map fun i => UInt8.ofNat (n / 2 ^ (i * 8)) := by
  induction width generalizing n with
  | zero => rfl
  | succ width ih =>
    have hbyte (i : ℕ) : n / 256 / 2 ^ (i * 8) = n / 2 ^ ((i + 1) * 8) := by
      have hexponent : (i + 1) * 8 = 8 + i * 8 := by omega
      rw [Nat.div_div_eq_div_mul, hexponent, Nat.pow_add]
    rw [bytesOf, ih, List.range_succ_eq_map, List.map_cons, List.map_map]
    simp only [hbyte, Nat.zero_mul, Nat.pow_zero, Nat.div_one]
    rfl

theorem bytesOf_add (low high n : ℕ) :
    bytesOf (low + high) n = bytesOf low n ++ bytesOf high (n / 256 ^ low) := by
  induction low generalizing n with
  | zero => rw [Nat.zero_add, Nat.pow_zero, Nat.div_one, bytesOf, List.nil_append]
  | succ low ih =>
    have hhigh : n / 256 / 256 ^ low = n / 256 ^ (low + 1) := by
      rw [Nat.div_div_eq_div_mul, Nat.pow_succ']
    rw [Nat.succ_add, bytesOf, ih, hhigh, bytesOf, List.cons_append]

theorem bytesOf_mod : bytesOf width (n % 256 ^ width) = bytesOf width n := by
  induction width generalizing n with
  | zero => rfl
  | succ width ih =>
    have hbyte : UInt8.ofNat (n % 256 ^ (width + 1)) = UInt8.ofNat n := by
      rw [← UInt8.toNat_inj, UInt8.toNat_ofNat', UInt8.toNat_ofNat', Nat.pow_succ']
      exact Nat.mod_mul_right_mod n 256 (256 ^ width)
    have hrest : n % 256 ^ (width + 1) / 256 = n / 256 % 256 ^ width := by
      rw [Nat.pow_succ', Nat.mod_mul_right_div_self]
    rw [bytesOf, hbyte, hrest, ih, bytesOf]

theorem ofBytes_bytesOf {width n : ℕ} (h : n < 256 ^ width) : ofBytes (bytesOf width n) = n := by
  induction width generalizing n with
  | zero =>
    exact (Nat.lt_one_iff.mp h).symm
  | succ width ih =>
    have hdiv : n / 256 < 256 ^ width := by
      rw [Nat.div_lt_iff_lt_mul (by decide), ← Nat.pow_succ]
      exact h
    rw [bytesOf, ofBytes, ih hdiv, UInt8.toNat_ofNat']
    exact Nat.mod_add_div n 256

theorem bytesOf_ofBytes (s : List UInt8) : bytesOf s.length (ofBytes s) = s := by
  induction s with
  | nil => rfl
  | cons b s ih =>
    have hb := b.toNat_lt
    have hdiv : (b.toNat + 256 * ofBytes s) / 256 = ofBytes s := by omega
    have hbyte : UInt8.ofNat (b.toNat + 256 * ofBytes s) = b := by
      rw [← UInt8.toNat_inj, UInt8.toNat_ofNat']
      omega
    rw [List.length_cons, ofBytes, bytesOf, hdiv, ih, hbyte]

theorem ofBytes_lt (s : List UInt8) : ofBytes s < 256 ^ s.length := by
  induction s with
  | nil => exact Nat.one_pos
  | cons b s ih =>
    have hb := b.toNat_lt
    rw [ofBytes, List.length_cons, Nat.pow_succ]
    omega

def ordered (bigEndian : Bool) (s : List UInt8) : List UInt8 := if bigEndian then s.reverse else s

@[simp] theorem length_ordered (bigEndian : Bool) (s : List UInt8) :
    (ordered bigEndian s).length = s.length := by
  cases bigEndian with
  | false => rfl
  | true => exact List.length_reverse

@[simp] theorem ordered_ordered (bigEndian : Bool) (s : List UInt8) :
    ordered bigEndian (ordered bigEndian s) = s := by
  cases bigEndian with
  | false => rfl
  | true => exact List.reverse_reverse s

/-- The layout of a type of words that stand for the numbers of some bytes. -/
def wordLayout {β : Type} (width : ℕ) (hwidth : 0 < width) (toNat : β → ℕ) (ofNat : ℕ → β)
    (hofNat : ∀ u, ofNat (toNat u) = u) (hlt : ∀ u, toNat u < 256 ^ width)
    (htoNat : ∀ n, n < 256 ^ width → toNat (ofNat n) = n) (bigEndian : Bool) : ByteLayout β where
  width := width
  put u := ordered bigEndian (bytesOf width (toNat u))
  get s := ofNat (ofBytes (ordered bigEndian (s.take width)))
  width_pos := hwidth
  length_put u := by rw [length_ordered, length_bytesOf]
  get_put u rest := by
    have hlength : (ordered bigEndian (bytesOf width (toNat u))).length = width := by
      rw [length_ordered, length_bytesOf]
    rw [List.take_left' hlength, ordered_ordered, ofBytes_bytesOf (hlt u), hofNat]
  put_get s hs := by
    have hlength : (ordered bigEndian (s.take width)).length = width := by
      rw [length_ordered, List.length_take, Nat.min_eq_left hs]
    have hfits := ofBytes_lt (ordered bigEndian (s.take width))
    have hbytes := bytesOf_ofBytes (ordered bigEndian (s.take width))
    rw [hlength] at hfits hbytes
    rw [htoNat _ hfits, hbytes, ordered_ordered]

def word16 (bigEndian : Bool) : ByteLayout UInt16 :=
  wordLayout 2 (by decide) UInt16.toNat UInt16.ofNat (fun _ => UInt16.ofNat_toNat)
    UInt16.toNat_lt (fun n h => by rw [UInt16.toNat_ofNat']; exact Nat.mod_eq_of_lt h) bigEndian

def word32 (bigEndian : Bool) : ByteLayout UInt32 :=
  wordLayout 4 (by decide) UInt32.toNat UInt32.ofNat (fun _ => UInt32.ofNat_toNat)
    UInt32.toNat_lt (fun n h => by rw [UInt32.toNat_ofNat']; exact Nat.mod_eq_of_lt h) bigEndian

end Machine

/-!
# Network order

The octets of a number with the most significant one first are its digits in base 256.
-/

namespace Machine

theorem byte_of_mask (n shift : ℕ) :
    (UInt8.ofNat (n >>> shift &&& 0xFF)).toNat = n / 2 ^ shift % 256 := by
  rw [UInt8.toNat_ofNat', show (0xFF : ℕ) = 2 ^ 8 - 1 from rfl, Nat.and_two_pow_sub_one_eq_mod,
    Nat.shiftRight_eq_div_pow]
  exact Nat.mod_mod _ _

/-- The octets of a number, with the most significant one first. -/
def bigEndian (width n : ℕ) : List UInt8 :=
  (List.range width).reverse.map fun i => UInt8.ofNat (n >>> (i * 8) &&& 0xFF)

variable (width : ℕ)

theorem length_bigEndian (n : ℕ) : (bigEndian width n).length = width := by
  simp [bigEndian]

theorem bigEndian_succ (n : ℕ) :
    bigEndian (width + 1) n = bigEndian width (n / 256) ++ [UInt8.ofNat (n &&& 0xFF)] := by
  have hshift : ∀ i, n >>> ((i + 1) * 8) = (n / 256) >>> (i * 8) := by
    intro i
    rw [Nat.shiftRight_eq_div_pow, Nat.shiftRight_eq_div_pow, Nat.div_div_eq_div_mul, Nat.add_mul,
      Nat.one_mul, Nat.pow_add, Nat.mul_comm]
  rw [bigEndian, List.range_succ_eq_map, List.reverse_cons, List.map_append, ← List.map_reverse,
    List.map_map]
  simp only [Function.comp_def, Nat.succ_eq_add_one, hshift]
  rfl

theorem toNat_bigEndian (n : ℕ) :
    (bigEndian width n).map UInt8.toNat = Printed.fixed 256 width n := by
  induction width generalizing n with
  | zero => rfl
  | succ width ih =>
    have hlow := byte_of_mask n 0
    rw [Nat.shiftRight_zero, Nat.pow_zero, Nat.div_one] at hlow
    rw [bigEndian_succ, List.map_append, ih, List.map_singleton, hlow, Printed.fixed]

end Machine
