import SharpRuntime.Machine.BitFields
import SharpRuntime.Model.BitArray

/-!
# Sections of a `BitVector32`

A section is a bit field, and a chain of them lies side by side from the lowest bit on
(`createSections_layout`).  So writing one never disturbs another, and a section gives back what it
can hold exactly when the whole chain fits the word (`sections_iff`): the last one may begin inside
the word and end outside.
-/

set_option autoImplicit false

namespace SharpRuntime.Analysis.BitSections

open Machine Model Model.BitVector32
open BitVector32

def width (maxValue : BitVec 16) : ℕ := Nat.size maxValue.toNat

variable {maxValue : BitVec 16}

theorem width_le (h : 0 < maxValue.toInt) : width maxValue ≤ 15 := by
  rw [width, Nat.size_le]
  rw [BitVec.toInt_eq_toNat_cond] at h
  split at h <;> omega

variable {n : ℕ}

theorem size_div_two (hn : n ≠ 0) : Nat.size n = Nat.size (n / 2) + 1 := by
  apply le_antisymm
  · rw [Nat.size_le, pow_succ]
    have := Nat.lt_size_self (n / 2)
    omega
  · rw [Nat.succ_le_iff, Nat.lt_size]
    by_cases hhalf : n / 2 = 0
    · rw [hhalf, Nat.size_zero]
      omega
    · have hpred : Nat.size (n / 2) - 1 < Nat.size (n / 2) := by
        have : 0 < Nat.size (n / 2) := Nat.size_pos.mpr (by omega)
        omega
      have hle := Nat.lt_size.mp hpred
      have hpow : 2 ^ Nat.size (n / 2) = 2 ^ (Nat.size (n / 2) - 1) * 2 := by
        rw [← pow_succ]
        congr 1
        omega
      omega

theorem maskLoop_eq (k : ℕ) (v : BitVec 16) (h : k + Nat.size v.toNat ≤ 16) :
    maskLoop (BitVec.ofNat 16 (2 ^ k - 1)) v =
      BitVec.ofNat 16 (2 ^ (k + Nat.size v.toNat) - 1) := by
  induction hn : v.toNat using Nat.strong_induction_on generalizing k v with
  | _ n ih =>
    rw [maskLoop]
    by_cases hv : v = 0
    · rw [if_pos hv, ← hn, hv]
      rfl
    · have hpos : v.toNat ≠ 0 := fun h => hv (BitVec.eq_of_toNat_eq h)
      have hhalf : (v >>> 1).toNat = v.toNat / 2 := by
        rw [BitVec.toNat_ushiftRight, Nat.shiftRight_eq_div_pow]
      have hsize := size_div_two hpos
      have hones : BitVec.ofNat 16 (2 ^ k - 1) <<< 1 ||| 1 = BitVec.ofNat 16 (2 ^ (k + 1) - 1) := by
        apply BitVec.eq_of_getLsbD_eq
        intro i hi
        rw [BitVec.getLsbD_or, BitVec.getLsbD_shiftLeft, BitVec.getLsbD_ofNat,
          BitVec.getLsbD_ofNat, Nat.testBit_two_pow_sub_one, Nat.testBit_two_pow_sub_one]
        by_cases hzero : i = 0
        · subst hzero
          simp
        · grind
      grind

theorem popcount_ones {k : ℕ} (h : k ≤ 16) : popcount (BitVec.ofNat 16 (2 ^ k - 1)) = k := by
  have hall : ∀ k : Fin 17, popcount (BitVec.ofNat 16 (2 ^ (k : ℕ) - 1)) = k := by decide
  exact hall ⟨k, by omega⟩

/-- The section is that bit field. -/
structure IsField (s : Section) (f : BitField) : Prop where
  offset : s.offset_.toNat = f.offset
  mask : s.mask_ = f.mask 16
  width_le : f.width ≤ 15
  offset_lt : f.offset < 32

variable {s : Section} {f : BitField}

theorem setWidth_mask (h : IsField s f) : s.mask_.setWidth 32 = f.mask 32 := by
  have hwidth := h.width_le
  apply BitVec.eq_of_getLsbD_eq
  intro i hi
  rw [BitVec.getLsbD_setWidth, h.mask, BitField.getLsbD_mask, BitField.getLsbD_mask]
  by_cases hlow : i < f.width
  · grind
  · rw [decide_eq_false hlow, Bool.false_and, Bool.false_and, Bool.and_false]

theorem get_eq (h : IsField s f) (data_ : BitVec 32) : get data_ s = f.read data_ := by
  rw [BitVector32.get, setWidth_mask h, h.offset, BitField.read]

theorem set_eq (h : IsField s f) (data_ value : BitVec 32) :
    set data_ s value = f.write data_ value := by
  rw [BitVector32.set, setWidth_mask h, h.offset, BitField.write]

def layout : (offset : ℕ) → List (BitVec 16) → List BitField
  | _, [] => []
  | offset, maxValue :: maxValues =>
    ⟨offset, width maxValue⟩ :: layout (offset + width maxValue) maxValues

theorem createSection_ends (maxValue : BitVec 16) (previous : Section) :
    (∃ s, createSection maxValue previous = pure s) ∨
      ∃ e, createSection maxValue previous = Run.throwing e := by
  rw [createSection]
  dsimp only
  split_ifs
  · exact Or.inr ⟨_, rfl⟩
  · exact Or.inr ⟨_, rfl⟩
  · exact Or.inl ⟨_, rfl⟩

variable {previous : Section}

theorem createSection_eq
    (hprevious : IsField previous f) (h : createSection maxValue previous = pure s) :
    0 < maxValue.toInt ∧ IsField s ⟨f.offset + f.width, width maxValue⟩ := by
  have hwidth := hprevious.width_le
  have hoffset := hprevious.offset_lt
  have hend : (BitVec.ofInt 16 (previous.offset_.toInt + popcount previous.mask_)) =
      BitVec.ofNat 16 (f.offset + f.width) := by
    rw [hprevious.mask, BitField.mask, popcount_ones (by omega), BitVec.toInt_eq_toNat_of_lt
      (by rw [hprevious.offset]; omega), hprevious.offset, ← Nat.cast_add, BitVec.ofInt_natCast]
  have hnat : (BitVec.ofNat 16 (f.offset + f.width)).toNat = f.offset + f.width := by
    rw [BitVec.toNat_ofNat, Nat.mod_eq_of_lt (by omega)]
  have hint : (BitVec.ofNat 16 (f.offset + f.width)).toInt = ((f.offset + f.width : ℕ) : ℤ) := by
    rw [BitVec.toInt_eq_toNat_of_lt (by omega), hnat]
  rw [createSection] at h
  by_cases hpos : maxValue.toInt ≤ 0
  · rw [if_pos hpos] at h
    cases h
  · rw [if_neg hpos] at h
    dsimp only at h
    rw [hend, hint] at h
    by_cases hfull : ((f.offset + f.width : ℕ) : ℤ) ≥ 32
    · rw [if_pos hfull] at h
      cases h
    · rw [if_neg hfull, Run.pure_inj] at h
      have hsize := width_le (show 0 < maxValue.toInt by omega)
      have hmask := maskLoop_eq 0 maxValue (by unfold width at hsize; omega)
      rw [Nat.zero_add] at hmask
      subst h
      exact ⟨by omega, hnat, hmask, hsize, by exact_mod_cast not_le.mp hfull⟩

variable {maxValues : List (BitVec 16)}

/-- The sections of a chain lie side by side above the previous one. -/
theorem createSections_layout {sections : List Section} (hprevious : IsField previous f)
    (h : createSections previous maxValues = pure sections) :
    List.Forall₂ IsField sections (layout (f.offset + f.width) maxValues) ∧
      ∀ m ∈ maxValues, 0 < m.toInt := by
  induction maxValues generalizing previous f sections with
  | nil =>
    obtain rfl := Run.pure_inj.mp h
    exact ⟨.nil, fun _ hm => absurd hm (List.not_mem_nil)⟩
  | cons m maxValues ih =>
    rw [createSections] at h
    rcases createSection_ends m previous with ⟨s, hs⟩ | ⟨e, he⟩
    · obtain ⟨hm, hs'⟩ := createSection_eq hprevious hs
      rw [hs, pure_bind] at h
      obtain ⟨rest, hrest, hcons⟩ := Run.map_eq_pure.mp (show
        (s :: ·) <$> createSections s maxValues = pure sections from h)
      obtain ⟨hlayout, hpos⟩ := ih hs' hrest
      subst hcons
      exact ⟨.cons hs' hlayout, List.forall_mem_cons.mpr ⟨hm, hpos⟩⟩
    · rw [he] at h
      cases h

def totalWidth (maxValues : List (BitVec 16)) : ℕ := (maxValues.map width).sum

theorem getElem?_layout (offset : ℕ) (maxValues : List (BitVec 16)) (i : ℕ) :
    (layout offset maxValues)[i]? =
      maxValues[i]?.map fun m => ⟨offset + totalWidth (maxValues.take i), width m⟩ := by
  induction maxValues generalizing offset i with
  | nil => rfl
  | cons m maxValues ih =>
    cases i with
    | zero => rfl
    | succ i => grind [layout, totalWidth]

theorem totalWidth_take_le {i : ℕ} {m : BitVec 16} (hi : maxValues[i]? = some m) (hn : i < n) :
    totalWidth (maxValues.take i) + width m ≤ totalWidth (maxValues.take n) := by
  obtain ⟨hlt, hget⟩ := List.getElem?_eq_some_iff.mp hi
  have hnext : totalWidth (maxValues.take (i + 1)) = totalWidth (maxValues.take i) + width m := by
    rw [totalWidth, List.take_succ_eq_append_getElem hlt, hget, List.map_append, List.sum_append]
    rfl
  have hprefix : maxValues.take (i + 1) <+: maxValues.take n :=
    List.take_prefix_take_left hn
  obtain ⟨rest, hrest⟩ := hprefix
  grind [totalWidth]

/-- Every section of a chain gives back what it can hold. -/
def SectionsHold (maxValues : List (BitVec 16)) (sections : List Section) : Prop :=
  ∀ (data_ value : BitVec 32) (i : ℕ) (m : BitVec 16) (s : Section), maxValues[i]? = some m →
    sections[i]? = some s → 0 ≤ value.toInt → value.toInt ≤ m.toInt →
    get (set data_ s value) s = value

section Chain

variable {maxValues : List (BitVec 16)} {sections : List Section}

variable {s : Section}

variable {i : ℕ}

theorem isField_of_getElem? (h : List.Forall₂ IsField sections (layout 0 maxValues))
    (hs : sections[i]? = some s) :
    ∃ m, maxValues[i]? = some m ∧ IsField s ⟨totalWidth (maxValues.take i), width m⟩ := by
  obtain ⟨hlt, hget⟩ := List.getElem?_eq_some_iff.mp hs
  have hlt' : i < (layout 0 maxValues).length := h.length_eq ▸ hlt
  have hfield := h.get hlt hlt'
  have hlayout := getElem?_layout 0 maxValues i
  rw [List.getElem?_eq_getElem hlt', eq_comm, Option.map_eq_some_iff, Nat.zero_add] at hlayout
  obtain ⟨m, hm, heq⟩ := hlayout
  refine ⟨m, hm, ?_⟩
  rw [heq]
  rw [← hget]
  exact hfield

theorem get_set_other (h : List.Forall₂ IsField sections (layout 0 maxValues)) {j : ℕ}
    (hij : j ≠ i) {t : Section} (hs : sections[i]? = some s) (ht : sections[j]? = some t)
    (data_ value : BitVec 32) :
    get (set data_ s value) t = get data_ t := by
  obtain ⟨m, hm, hsField⟩ := isField_of_getElem? h hs
  obtain ⟨n, hn, htField⟩ := isField_of_getElem? h ht
  rw [set_eq hsField, get_eq htField, get_eq htField]
  apply BitField.read_write_of_disjoint
  rcases Nat.lt_or_gt_of_ne hij with hlt | hgt
  · exact Or.inr (totalWidth_take_le hn hlt)
  · exact Or.inl (totalWidth_take_le hm hgt)

variable {m : BitVec 16}

theorem toInt_of_pos (h : 0 < m.toInt) : m.toInt = m.toNat := by
  have hlt := m.isLt
  rw [BitVec.toInt_eq_toNat_cond] at h ⊢
  split at h
  · rename_i hsmall
    rw [if_pos hsmall]
  · omega

variable {offset : ℕ}

theorem get_set_self
    (hs : IsField s ⟨offset, width m⟩) (hfits : offset + width m ≤ 32) (hm : 0 < m.toInt)
    {value : BitVec 32} (hlow : 0 ≤ value.toInt) (hhigh : value.toInt ≤ m.toInt)
    (data_ : BitVec 32) : get (set data_ s value) s = value := by
  have hvalue : value.toInt = value.toNat := by
    have hlt := value.isLt
    rw [BitVec.toInt_eq_toNat_cond] at hlow ⊢
    split at hlow
    · rename_i hsmall
      rw [if_pos hsmall]
    · omega
  rw [hvalue, toInt_of_pos hm] at hhigh
  rw [set_eq hs, get_eq hs]
  refine BitField.read_write data_ value hfits ?_
  have hsize : m.toNat < 2 ^ width m := Nat.lt_size_self m.toNat
  change value.toNat < 2 ^ width m
  omega

theorem get_set_lost
    (hs : IsField s ⟨offset, width m⟩) (hpast : 32 < offset + width m) (hm : 0 < m.toInt)
    (data_ : BitVec 32) :
    get (set data_ s (m.setWidth 32)) s ≠ m.setWidth 32 := by
  rw [set_eq hs, get_eq hs]
  have hpos : 0 < m.toNat := by grind
  have hwidth : 0 < width m := Nat.size_pos.mpr hpos
  have htop : m.toNat.testBit (width m - 1) = true := by
    have hle : 2 ^ (width m - 1) ≤ m.toNat := Nat.lt_size.mp (Nat.sub_lt hwidth (by decide))
    have hlt : m.toNat < 2 ^ (width m - 1) * 2 := by
      rw [← pow_succ, Nat.sub_add_cancel hwidth]
      exact Nat.lt_size_self m.toNat
    rw [Nat.testBit_eq_decide_div_mod_eq, Nat.div_eq_of_lt_le (k := 1) (by omega) (by omega)]
    rfl
  refine BitField.read_write_ne data_ (m.setWidth 32) (width m - 1) ?_ ?_
  · grind [width_le]
  · grind

end Chain

/-- **Sections of a bit vector.**  In a chain that is created, writing a section leaves what every
other one reads as it was; and every section gives back every value it can hold exactly when the
widths of the chain add up to 32 bits at most. -/
theorem sections_iff {maxValues : List (BitVec 16)} {sections : List Section}
    (h : firstSections maxValues = pure sections) :
    (SectionsHold maxValues sections ↔ totalWidth maxValues ≤ 32) ∧
      ∀ (data_ value : BitVec 32) (i j : ℕ) (s t : Section), j ≠ i → sections[i]? = some s →
        sections[j]? = some t →
        get (set data_ s value) t = get data_ t := by
  have hfirst : IsField ⟨0, 0⟩ ⟨0, 0⟩ := ⟨rfl, rfl, by decide, by decide⟩
  obtain ⟨hlayout, hpos⟩ := createSections_layout hfirst h
  have hlength : sections.length = maxValues.length := by
    have hindex : ∀ (offset : ℕ) (l : List (BitVec 16)), (layout offset l).length = l.length := by
      intro offset l
      induction l generalizing offset with
      | nil => rfl
      | cons m l ih => rw [layout, List.length_cons, ih, List.length_cons]
    rw [hlayout.length_eq, hindex]
  refine ⟨⟨fun hold => ?_, fun hfits => ?_⟩, fun data_ value i j s t hij hs ht =>
    get_set_other hlayout hij hs ht data_ value⟩
  · -- the last section of a chain that is too wide
    by_contra hwide
    have hne : maxValues ≠ [] := by
      rintro rfl
      exact hwide (Nat.zero_le _)
    have hlast : maxValues.length - 1 < maxValues.length :=
      Nat.sub_lt (List.length_pos_of_ne_nil hne) (by decide)
    obtain ⟨s, hs⟩ : ∃ s, sections[maxValues.length - 1]? = some s :=
      ⟨_, List.getElem?_eq_getElem (hlength ▸ hlast)⟩
    obtain ⟨m, hm, hfield⟩ := isField_of_getElem? hlayout hs
    have hmpos := hpos m (List.mem_of_getElem? hm)
    have hsplit : totalWidth maxValues =
        totalWidth (maxValues.take (maxValues.length - 1)) + width m := by
      obtain ⟨hlt, hget⟩ := List.getElem?_eq_some_iff.mp hm
      have htake := List.take_succ_eq_append_getElem hlt
      rw [hget, Nat.sub_add_cancel (by omega), List.take_length] at htake
      conv_lhs => rw [htake]
      simp [totalWidth]
    have hint : (m.setWidth 32).toInt = m.toInt := by
      have hsmall := m.isLt
      grind
    have hback := hold 0 (m.setWidth 32) _ m s hm hs (by omega) (by omega)
    exact get_set_lost hfield (by omega) hmpos 0 hback
  · intro data_ value i m s hm hs hlow hhigh
    obtain ⟨m', hm', hfield⟩ := isField_of_getElem? hlayout hs
    obtain rfl : m' = m := by grind
    have hbound := totalWidth_take_le hm
      (List.getElem?_eq_some_iff.mp hm).1
    rw [List.take_length] at hbound
    exact get_set_self hfield (hbound.trans hfits) (hpos m' (List.mem_of_getElem? hm)) hlow hhigh
      data_

/-- Two bytes and a section of seven bits. -/
theorem sections_three :
    (SectionsHold [255, 255, 100] [⟨255, 0⟩, ⟨255, 8⟩, ⟨127, 16⟩] ↔
      totalWidth [255, 255, 100] ≤ 32) := by
  have hbyte : maskLoop 0 255 = 255 := by simp [maskLoop]
  have hseven : maskLoop 0 100 = 127 := by simp [maskLoop]
  have hfirst : createSection 255 ⟨0, 0⟩ = pure ⟨255, 0⟩ := by
    rw [createSection, hbyte]
    decide
  have hsecond : createSection 255 ⟨255, 0⟩ = pure ⟨255, 8⟩ := by
    rw [createSection, hbyte]
    decide
  have hthird : createSection 100 ⟨255, 8⟩ = pure ⟨127, 16⟩ := by
    rw [createSection, hseven]
    decide
  refine (sections_iff ?_).1
  simp only [firstSections, createSections, hfirst, hsecond, hthird, pure_bind]

/-- Three sections of fifteen bits are created, and the last one has two. -/
theorem sections_past_end :
    firstSections [32767, 32767, 32767] = pure [⟨32767, 0⟩, ⟨32767, 15⟩, ⟨32767, 30⟩] ∧
      ¬ SectionsHold [32767, 32767, 32767] [⟨32767, 0⟩, ⟨32767, 15⟩, ⟨32767, 30⟩] := by
  have hmask : maskLoop 0 32767 = 32767 := by simp [maskLoop]
  have hfirst : createSection 32767 ⟨0, 0⟩ = pure ⟨32767, 0⟩ := by
    rw [createSection, hmask]
    decide
  have hsecond : createSection 32767 ⟨32767, 0⟩ = pure ⟨32767, 15⟩ := by
    rw [createSection, hmask]
    decide
  have hthird : createSection 32767 ⟨32767, 15⟩ = pure ⟨32767, 30⟩ := by
    rw [createSection, hmask]
    decide
  refine ⟨by simp only [firstSections, createSections, hfirst, hsecond, hthird, pure_bind],
    fun hold => ?_⟩
  have hback := hold 0 32767 2 32767 ⟨32767, 30⟩ rfl rfl (by decide) (by decide)
  revert hback
  decide

end SharpRuntime.Analysis.BitSections
