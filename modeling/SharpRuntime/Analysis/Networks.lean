import SharpRuntime.Analysis.AddressText

/-!
# Networks

The mask of a network keeps the bits of its prefix and clears the others, in four bytes or in
sixteen.  Addresses are the same bytes when all of their bits are the same, so that an address lies
in a network when it has its family and agrees with it on the prefix.
-/

set_option autoImplicit false
set_option maxRecDepth 20000

namespace SharpRuntime.Analysis.Networks

open Model Model.IPNetwork
open IPAddress

/-- The bits of an address, from the highest of its first byte on. -/
def bit (bytes : List UInt8) (i : ℕ) : Bool := (bytes.getD (i / 8) 0).toNat.testBit (7 - i % 8)

theorem testBit_mask : ∀ r < 8, ∀ j < 8,
    (UInt8.ofNat (0xFF <<< (8 - r))).toNat.testBit (7 - j) = decide (j < r) := by decide

theorem length_applyPrefixMask (bytes : List UInt8) (n : ℕ) :
    (applyPrefixMask bytes n).length = bytes.length := by
  simp only [applyPrefixMask]
  split <;> simp

variable {bytes : List UInt8} {n : ℕ}

theorem bit_applyPrefixMask (i : ℕ) :
    bit (applyPrefixMask bytes n) i = (decide (i < n) && bit bytes i) := by
  have hmask := testBit_mask (n % 8) (Nat.mod_lt _ (by decide)) (i % 8) (Nat.mod_lt _ (by decide))
  simp only [bit, applyPrefixMask, List.getD_eq_getElem?_getD]
  cases h : bytes[i / 8]? with
  | none => split <;> simp [List.getElem?_modify, List.getElem?_mapIdx, h]
  | some b =>
    obtain ⟨hi, -⟩ := List.getElem?_eq_some_iff.mp h
    split
    case isTrue hpartial =>
      rw [List.getElem?_modify, List.getElem?_mapIdx, h, if_pos (by omega)]
      -- the byte lies before the one that the prefix ends in, or is it, or comes after it
      rcases lt_trichotomy (i / 8) (n / 8) with hlt | heq | hgt
      · simp [show ¬n / 8 = i / 8 by omega, show ¬n / 8 + 1 ≤ i / 8 by omega,
          show i < n by omega]
      · have hprefix : decide (i % 8 < n % 8) = decide (i < n) := decide_eq_decide.mpr (by omega)
        simp only [heq.symm, Option.map_eq_map, Option.map_some, Option.getD_some, if_true, UInt8.toNat_and,
          Nat.testBit_and, hmask, hprefix, if_neg (show ¬i / 8 + 1 ≤ i / 8 by omega)]
        exact Bool.and_comm _ _
      · simp [show ¬n / 8 = i / 8 by omega, show n / 8 + 1 ≤ i / 8 by omega,
          show ¬i < n by omega]
    case isFalse hwhole =>
      rw [List.getElem?_mapIdx, h]
      by_cases hin : i < n
      · simp [hin, show ¬(n / 8 + if n % 8 = 0 then 0 else 1) ≤ i / 8 by split <;> omega]
      · simp [hin, show (n / 8 + if n % 8 = 0 then 0 else 1) ≤ i / 8 by split <;> omega]

variable {a : List UInt8}

theorem eq_iff_bits {b : List UInt8} (hlength : a.length = b.length) :
    a = b ↔ ∀ i < 8 * a.length, bit a i = bit b i := by
  refine ⟨fun h _ _ => by rw [h], fun h => List.ext_getElem hlength fun k hk hk' => ?_⟩
  apply UInt8.toNat_inj.mp
  apply Nat.eq_of_testBit_eq
  intro j
  rcases Nat.lt_or_ge j 8 with hj | hj
  · have hbit := h (8 * k + (7 - j)) (by omega)
    rw [bit, bit, show (8 * k + (7 - j)) / 8 = k by omega,
      show 7 - (8 * k + (7 - j)) % 8 = j by omega, List.getD_eq_getElem _ _ hk,
      List.getD_eq_getElem _ _ hk'] at hbit
    exact hbit
  · have hle : 2 ^ 8 ≤ 2 ^ j := Nat.pow_le_pow_right (by decide) hj
    rw [Nat.testBit_lt_two_pow (a[k].toNat_lt.trans_le hle),
      Nat.testBit_lt_two_pow (b[k].toNat_lt.trans_le hle)]

theorem applyPrefixMask_eq_iff {b : List UInt8} (hlength : a.length = b.length)
    (hn : n ≤ 8 * a.length) :
    applyPrefixMask a n = applyPrefixMask b n ↔ ∀ i < n, bit a i = bit b i := by
  rw [eq_iff_bits (by rw [length_applyPrefixMask, length_applyPrefixMask, hlength]),
    length_applyPrefixMask]
  simp only [bit_applyPrefixMask]
  constructor
  · intro h i hi
    simpa [hi] using h i (by omega)
  · intro h i _
    by_cases hi : i < n
    · rw [h i hi]
    · simp [hi]

theorem length_getAddressBytes (a : IPAddress) :
    8 * a.getAddressBytes.length = getMaxPrefixLength a := by
  unfold getAddressBytes getMaxPrefixLength
  split
  · simp
  · rfl

theorem octets32 (a b c d : UInt8) :
    let x : UInt32 := a.toUInt32 <<< 24 ||| b.toUInt32 <<< 16 ||| c.toUInt32 <<< 8 ||| d.toUInt32
    (x >>> 24 &&& 0xFF).toUInt8 = a ∧ (x >>> 16 &&& 0xFF).toUInt8 = b ∧
      (x >>> 8 &&& 0xFF).toUInt8 = c ∧ (x &&& 0xFF).toUInt8 = d := by
  intro x
  have hand : ∀ v : UInt32, (v &&& 0xFF).toUInt8 = v.toUInt8 := fun v => by
    rw [UInt32.toUInt8_and]
    exact UInt8.and_neg_one
  simp only [hand]
  refine ⟨?_, ?_, ?_, ?_⟩ <;>
  · apply UInt8.eq_of_toBitVec_eq
    apply BitVec.eq_of_getLsbD_eq
    intro i hi
    simp [x] <;> grind

theorem octets16 (a b : UInt8) :
    [((a.toUInt16 <<< 8 ||| b.toUInt16) >>> 8).toUInt8,
      ((a.toUInt16 <<< 8 ||| b.toUInt16) &&& 0xFF).toUInt8] = [a, b] := by
  rw [UInt16.toUInt8_and, show (0xFF : UInt16).toUInt8 = -1 from rfl, UInt8.and_neg_one,
    List.cons_eq_cons, List.cons_eq_cons]
  refine ⟨?_, ?_, rfl⟩ <;>
  · apply UInt8.eq_of_toBitVec_eq
    apply BitVec.eq_of_getLsbD_eq
    intro i hi
    simp <;> grind

theorem getAddressBytes_ofBytes (h : bytes.length = 4) :
    (ofBytes bytes).getAddressBytes = bytes := by
  match bytes, h with
  | [a, b, c, d], _ =>
    obtain ⟨ha, hb, hc, hd⟩ := octets32 a b c d
    exact congr (congrArg _ ha)
      (congr (congrArg _ hb) (congr (congrArg _ hc) (congrArg (· :: []) hd)))

theorem getAddressBytes_ofScopedBytes (h : bytes.length = 16)
    (scopeId : UInt32) : (ofScopedBytes bytes scopeId).getAddressBytes = bytes := by
  match bytes, h with
  | [a, b, c, d, e, f, g, h, i, j, k, l, m, n, o, p], _ =>
    have hpair : ∀ a b : UInt8, ∀ {s t : List UInt8}, s = t →
        [((a.toUInt16 <<< 8 ||| b.toUInt16) >>> 8).toUInt8,
          ((a.toUInt16 <<< 8 ||| b.toUInt16) &&& 0xFF).toUInt8] ++ s = [a, b] ++ t := by
      intro a b s t hst
      rw [octets16, hst]
    exact hpair a b (hpair c d (hpair e f (hpair g h (hpair i j (hpair k l (hpair m n
      (hpair o p rfl)))))))

theorem clearNonPrefixBits_spec (b : IPAddress) (n : ℕ) :
    (clearNonPrefixBits b n).isIPv6_ = b.isIPv6_ ∧
      (clearNonPrefixBits b n).getAddressBytes = applyPrefixMask b.getAddressBytes n ∧
      (b.isIPv6_ = true → (clearNonPrefixBits b n).addressOrScopeId_ = b.addressOrScopeId_) := by
  have hlength := length_getAddressBytes b
  have hmasked := length_applyPrefixMask b.getAddressBytes n
  unfold clearNonPrefixBits
  unfold getMaxPrefixLength at hlength
  cases hfamily : b.isIPv6_ with
  | true =>
    rw [hfamily, if_pos rfl] at hlength
    exact ⟨rfl, getAddressBytes_ofScopedBytes (by omega) _, fun _ => rfl⟩
  | false =>
    rw [hfamily, if_neg (by decide)] at hlength
    exact ⟨rfl, getAddressBytes_ofBytes (by omega), nofun⟩

theorem applyPrefixMask_idem (bytes : List UInt8) (n : ℕ) :
    applyPrefixMask (applyPrefixMask bytes n) n = applyPrefixMask bytes n := by
  rw [eq_iff_bits (length_applyPrefixMask _ n)]
  intro i _
  rw [bit_applyPrefixMask, bit_applyPrefixMask, ← Bool.and_assoc, Bool.and_self]

theorem clearNonPrefixBits_idem (b : IPAddress) (n : ℕ) :
    clearNonPrefixBits (clearNonPrefixBits b n) n = clearNonPrefixBits b n := by
  obtain ⟨hfamily, hbytes, hscope⟩ := clearNonPrefixBits_spec b n
  rw [clearNonPrefixBits, hbytes, applyPrefixMask_idem, hfamily]
  cases hb : b.isIPv6_ with
  | true =>
    rw [hscope hb, clearNonPrefixBits, if_pos rfl, if_pos hb]
  | false =>
    rw [clearNonPrefixBits, if_neg (by decide), if_neg (by rw [hb]; decide)]

variable {b : IPAddress}

theorem new_ok (hn : n ≤ getMaxPrefixLength b) :
    IPNetwork.new b n = .ok ⟨clearNonPrefixBits b n, n⟩ := by
  rw [IPNetwork.new, if_neg (by omega), Int.toNat_natCast]

def seenBy (b a : IPAddress) : IPAddress :=
  if b.isIPv6_ = false ∧ a.isIPv6_ = true ∧ isMapped a.numbers_ = true then a.mapToIPv4
  else a

theorem contains_iff (hn : n ≤ getMaxPrefixLength b) (a : IPAddress) :
    (IPNetwork.mk (clearNonPrefixBits b n) n).contains a = true ↔
      (seenBy b a).isIPv6_ = b.isIPv6_ ∧
        ∀ i < n, bit (seenBy b a).getAddressBytes i = bit b.getAddressBytes i := by
  obtain ⟨hfamily, hbytes, -⟩ := clearNonPrefixBits_spec b n
  have hcompare : ∀ x : IPAddress, x.isIPv6_ = b.isIPv6_ →
      ((applyPrefixMask x.getAddressBytes n == applyPrefixMask b.getAddressBytes n) = true ↔
        x.isIPv6_ = b.isIPv6_ ∧ ∀ i < n, bit x.getAddressBytes i = bit b.getAddressBytes i) := by
    intro x hx
    have hlength := length_getAddressBytes x
    have hlength' := length_getAddressBytes b
    have hmax : getMaxPrefixLength x = getMaxPrefixLength b := by
      rw [getMaxPrefixLength, hx, getMaxPrefixLength]
    rw [beq_iff_eq, applyPrefixMask_eq_iff (by omega) (by omega), and_iff_right hx]
  unfold contains seenBy
  simp only [hfamily, hbytes]
  by_cases hsame : a.isIPv6_ = b.isIPv6_
  · have hnot : ¬(b.isIPv6_ = false ∧ a.isIPv6_ = true ∧ isMapped a.numbers_ = true) :=
      fun h => by simp [h.1, h.2.1] at hsame
    rw [if_neg (not_not.mpr hsame), if_neg hnot]
    exact hcompare a hsame
  · rw [if_pos hsame]
    by_cases hmapped : b.isIPv6_ = false ∧ a.isIPv6_ = true ∧ isMapped a.numbers_ = true
    · rw [if_pos hmapped, if_pos (by simp [hmapped])]
      refine hcompare _ ?_
      rw [mapToIPv4, if_pos hmapped.2.1, hmapped.1]
      rfl
    · rw [if_neg hmapped, if_neg (by simpa [and_assoc] using hmapped)]
      exact iff_of_false Bool.false_ne_true fun h => hsame h.1

theorem decimal_spec : ∀ n < 129, (decimal n).isEmpty = false ∧
    (decimal n).all isdigit = true ∧ stol (decimal n) = some n := by
  decide

theorem rfind_append {c : UInt8} {s : List UInt8} (h : c ∉ s) :
    rfind (a ++ c :: s) c = some a.length := by
  have hfind : (a ++ c :: s).reverse.findIdx? (· == c) = some s.length := by
    rw [List.reverse_append, List.reverse_cons, List.append_assoc, List.findIdx?_append,
      List.findIdx?_eq_none_iff.mpr (by
        intro x hx
        simpa using fun heq : x = c => h (heq ▸ List.mem_reverse.mp hx))]
    simp [List.findIdx?_cons]
  rw [rfind, hfind]
  simp

theorem tryParse_toString (a : IPAddress) : IPAddress.tryParse a.toString = .ok (some a) := by
  have hparse := AddressText.parse_text a
  obtain ⟨r, hr⟩ := AddressText.tryParse_ok a.toString
  rw [IPAddress.parse, hr] at hparse
  cases r with
  | none => cases hparse
  | some a' =>
    cases hparse
    exact hr

theorem parse_text (hn : n ≤ getMaxPrefixLength b) :
    IPNetwork.parse (IPNetwork.mk (clearNonPrefixBits b n) n).toString =
      .ok ⟨clearNonPrefixBits b n, n⟩ := by
  have hmax : getMaxPrefixLength (clearNonPrefixBits b n) = getMaxPrefixLength b := by
    rw [getMaxPrefixLength, (clearNonPrefixBits_spec b n).1, getMaxPrefixLength]
  have hlt : n < 129 := by
    unfold getMaxPrefixLength at hn
    split at hn <;> omega
  obtain ⟨hempty, hdigits, hstol⟩ := decimal_spec n hlt
  have hslash : '/'.toUInt8 ∉ decimal n := fun hmem =>
    absurd (List.all_eq_true.mp hdigits _ hmem) (by decide)
  have hnew := new_ok (hmax.symm ▸ hn)
  rw [clearNonPrefixBits_idem] at hnew
  have hdrop : ((clearNonPrefixBits b n).toString ++ '/'.toUInt8 :: decimal n).drop
      ((clearNonPrefixBits b n).toString.length + 1) = IPAddress.decimal n := by
    rw [← List.drop_drop, List.drop_left, List.drop_one, List.tail_cons]
  rw [IPNetwork.parse, IPNetwork.tryParse, IPNetwork.toString, rfind_append hslash]
  simp only [List.take_left, hdrop, hempty, hdigits, tryParse_toString, hstol, hmax, hnew, bind,
    Except.bind, if_neg (show ¬n > getMaxPrefixLength b by omega)]
  rfl

/-- **What a network contains, and its text.**  A network over an address has the prefix of the
address and no other bits, keeps its family and its scope, and is the network over its own base.  It
contains exactly the addresses of its family that agree with it on the prefix, where a network of
IPv4 sees a mapped address as the one it maps; and its text is read back as the network. -/
theorem ip_network (b : IPAddress) {n : ℕ} (hn : n ≤ getMaxPrefixLength b) :
    ∃ net, IPNetwork.new b n = .ok net ∧ net.prefixLength_ = n ∧
      (∀ a, net.contains a = true ↔ (seenBy b a).isIPv6_ = b.isIPv6_ ∧
        ∀ i < n, bit (seenBy b a).getAddressBytes i = bit b.getAddressBytes i) ∧
      (∀ i, bit net.baseAddress_.getAddressBytes i =
        (decide (i < n) && bit b.getAddressBytes i)) ∧
      net.baseAddress_.isIPv6_ = b.isIPv6_ ∧
      (b.isIPv6_ = true → net.baseAddress_.addressOrScopeId_ = b.addressOrScopeId_) ∧
      IPNetwork.new net.baseAddress_ n = .ok net ∧ IPNetwork.parse net.toString = .ok net := by
  obtain ⟨hfamily, hbytes, hscope⟩ := clearNonPrefixBits_spec b n
  have hmax : getMaxPrefixLength (clearNonPrefixBits b n) = getMaxPrefixLength b := by
    rw [getMaxPrefixLength, hfamily, getMaxPrefixLength]
  have hagain := new_ok (hmax.symm ▸ hn)
  rw [clearNonPrefixBits_idem] at hagain
  refine ⟨_, new_ok hn, rfl, contains_iff hn, fun i => ?_, hfamily, hscope, hagain,
    parse_text hn⟩
  rw [hbytes, bit_applyPrefixMask]

/-- A network of twenty bits, and an address in it. -/
theorem ip_network_twenty :
    ∃ net, IPNetwork.new (.ofAddress 0xC0A8014D) 20 = .ok net ∧
      net.contains (.ofAddress 0xC0A80F01) = true ∧ IPNetwork.parse net.toString = .ok net := by
  obtain ⟨net, hnew, -, hcontains, -, -, -, -, hparse⟩ :=
    ip_network (.ofAddress 0xC0A8014D) (n := 20) (by decide)
  exact ⟨net, hnew, (hcontains _).mpr (by decide), hparse⟩

end SharpRuntime.Analysis.Networks
