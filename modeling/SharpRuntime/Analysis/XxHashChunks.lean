import SharpRuntime.Interface.HashProgram

/-!
# `XxHash32` and `XxHash64` compute xxHash32 and xxHash64

Between two calls a hasher stands for the bytes appended so far (`Absorbed`): its lanes have taken
their whole stripes, its buffer holds the rest and its counter their number modulo `2 ^ 64`.
`append_absorbed` is the step for both classes.  The hash is the function of all bytes, except that
the counter, once it has wrapped, can make a long input look shorter than a stripe (`count_wraps`).
-/

set_option autoImplicit false
set_option maxRecDepth 20000

namespace SharpRuntime.Analysis.XxHashChunks

open Machine Model Interface

/-! ## Words -/

variable {s : List UInt8}

theorem toNat_readUInt32LittleEndian (h : 4 ≤ s.length) :
    (readUInt32LittleEndian s).toNat = ofBytes (s.take 4) := by
  obtain ⟨b₀, b₁, b₂, b₃, t, rfl⟩ : ∃ b₀ b₁ b₂ b₃ t, s = b₀ :: b₁ :: b₂ :: b₃ :: t := by
    match s, h with
    | b₀ :: b₁ :: b₂ :: b₃ :: t, _ => exact ⟨b₀, b₁, b₂, b₃, t, rfl⟩
  have h₀ := b₀.toNat_lt
  have h₁ := b₁.toNat_lt
  have h₂ := b₂.toNat_lt
  have h₃ := b₃.toNat_lt
  have hread : (readUInt32LittleEndian (b₀ :: b₁ :: b₂ :: b₃ :: t)).toNat
      = b₀.toNat ||| (b₁.toNat * 2 ^ 8) ||| (b₂.toNat * 2 ^ 16) ||| (b₃.toNat * 2 ^ 24) := by
    simp only [readUInt32LittleEndian, UInt32.toNat_or, UInt32.toNat_shiftLeft, List.getD_cons_zero,
      List.getD_cons_succ, UInt8.toNat_toUInt32, UInt32.toNat_ofNat, Nat.shiftLeft_eq,
      Nat.reducePow, Nat.reduceMod]
    rw [Nat.mod_eq_of_lt (by omega), Nat.mod_eq_of_lt (by omega), Nat.mod_eq_of_lt (by omega)]
  rw [hread, Nat.or_comm b₀.toNat, or_add _ h₀, Nat.or_comm _ (b₂.toNat * 2 ^ 16),
    or_add _ (by omega), Nat.or_comm _ (b₃.toNat * 2 ^ 24), or_add _ (by omega)]
  simp only [List.take_succ_cons, List.take_zero, ofBytes]
  omega

theorem readUInt32LittleEndian_eq (h : 4 ≤ s.length) :
    readUInt32LittleEndian s = XxHash32Function.word (s.take 4) := by
  rw [XxHash32Function.word, ← toNat_readUInt32LittleEndian h, UInt32.ofNat_toNat]

theorem toUInt64_readUInt32LittleEndian (h : 4 ≤ s.length) :
    (readUInt32LittleEndian s).toUInt64 = XxHash64Function.word (s.take 4) := by
  rw [XxHash64Function.word, ← toNat_readUInt32LittleEndian h, ← UInt32.toNat_toUInt64,
    UInt64.ofNat_toNat]

theorem ofBytes_append (s t : List UInt8) :
    ofBytes (s ++ t) = ofBytes s + 256 ^ s.length * ofBytes t := by
  induction s with
  | nil => simp [ofBytes]
  | cons b s ih =>
    rw [List.cons_append, ofBytes, ih, ofBytes, List.length_cons, Nat.pow_succ]
    ring

theorem readUInt64LittleEndian_eq (h : 8 ≤ s.length) :
    readUInt64LittleEndian s = XxHash64Function.word (s.take 8) := by
  have hlow := toNat_readUInt32LittleEndian (s := s) (by omega)
  have hhigh := toNat_readUInt32LittleEndian (s := s.drop 4)
    (by rw [List.length_drop]; omega)
  have hlt := (readUInt32LittleEndian s).toNat_lt
  have hlt' := (readUInt32LittleEndian (s.drop 4)).toNat_lt
  have hsplit : s.take 8 = s.take 4 ++ (s.drop 4).take 4 := by rw [← List.take_add]
  have hlength : (s.take 4).length = 4 := by
    rw [List.length_take]
    omega
  have hread : (readUInt64LittleEndian s).toNat = ofBytes (s.take 8) := by
    rw [hsplit, ofBytes_append, hlength, ← hlow, ← hhigh]
    simp only [readUInt64LittleEndian, UInt64.toNat_or, UInt64.toNat_shiftLeft,
      UInt32.toNat_toUInt64, UInt64.toNat_ofNat, Nat.shiftLeft_eq, Nat.reducePow, Nat.reduceMod]
    rw [Nat.mod_eq_of_lt (by omega), Nat.or_comm]
    have hjoin := or_add (w := 32) (readUInt32LittleEndian (s.drop 4)).toNat hlt
    simp only [Nat.reducePow] at hjoin
    rw [hjoin]
    omega
  rw [XxHash64Function.word, ← hread, UInt64.ofNat_toNat]

variable {n : ℕ}

theorem take_drop_take (s : List UInt8) {m k : ℕ} (h : n + k ≤ m) :
    ((s.take m).drop n).take k = (s.drop n).take k := by
  rw [List.drop_take, List.take_take, Nat.min_eq_left (by omega)]

/-! ## Appending -/

section Append

variable {W : Type} {stripe : ℕ} {consume : Lanes W → List UInt8 → Lanes W}
  {processBlock : XxHash W → List UInt8 → XxHash W} {seed : W} {start : Lanes W}

def lanes (h : XxHash W) : Lanes W := (h.v1, h.v2, h.v3, h.v4)

def setLanes (v : Lanes W) (h : XxHash W) : XxHash W :=
  { h with v1 := v.1, v2 := v.2.1, v3 := v.2.2.1, v4 := v.2.2.2 }

/-- `processBlock` moves the lanes by the first stripe it is given, and nothing else. -/
def ProcessesBy (stripe : ℕ) (consume : Lanes W → List UInt8 → Lanes W)
    (processBlock : XxHash W → List UInt8 → XxHash W) : Prop :=
  ∀ h block, stripe ≤ block.length →
    processBlock h block = setLanes (consume (lanes h) (block.take stripe)) h

/-- The lanes of a stripe are the words at its quarters, whatever follows the stripe. -/
theorem processesBy_words {k : ℕ} {read word : List UInt8 → W} (round : W → W → W)
    (hread : ∀ {s : List UInt8}, k ≤ s.length → read s = word (s.take k)) :
    ProcessesBy (4 * k)
      (fun v s => (round v.1 (word (s.take k)), round v.2.1 (word ((s.drop k).take k)),
        round v.2.2.1 (word ((s.drop (2 * k)).take k)),
        round v.2.2.2 (word ((s.drop (3 * k)).take k))))
      (fun h s => { h with
        v1 := round h.v1 (read s)
        v2 := round h.v2 (read (s.drop k))
        v3 := round h.v3 (read (s.drop (2 * k)))
        v4 := round h.v4 (read (s.drop (3 * k))) }) := by
  intro h block hlong
  have hword (n : ℕ) (hn : n + k ≤ 4 * k) :
      read (block.drop n) = word (((block.take (4 * k)).drop n).take k) := by
    rw [hread (by rw [List.length_drop]; omega), take_drop_take _ hn]
  have hfirst := hword 0 (by omega)
  rw [List.drop_zero, List.drop_zero] at hfirst
  dsimp only
  rw [hfirst, hword k (by omega), hword (2 * k) (by omega), hword (3 * k) (by omega)]
  rfl

/-- The hasher `h` stands for the bytes `s`. -/
structure Absorbed (stripe : ℕ) (consume : Lanes W → List UInt8 → Lanes W) (start : Lanes W)
    (seed : W) (s : List UInt8) (h : XxHash W) : Prop where
  seed : h.seed = seed
  lanes : lanes h = blocks stripe consume start s
  totalLength : h.totalLength = UInt64.ofNat s.length
  length_buf : h.buf.length = stripe
  bufLen : h.bufLen = (rest stripe s).length
  waiting : h.buf.take h.bufLen = rest stripe s

variable {stop : ℕ}

variable {source : List UInt8} {p : ℕ}

theorem takeStripes_eq (hstripe : 0 < stripe) (hprocess : ProcessesBy stripe consume processBlock)
    (hstop : stop ≤ source.length) (hp : p ≤ stop)
    (h : XxHash W) :
    XxHash.takeStripes stripe processBlock source stop (h, p)
      = pure (setLanes (blocks stripe consume (lanes h) (window source stop p)) h,
          stop - (rest stripe (window source stop p)).length) := by
  have hloop : XxHash.takeStripes stripe processBlock source stop (h, p)
      = pure (blocks stripe processBlock h (window source stop p),
          stop - (rest stripe (window source stop p)).length) := by
    refine Run.whileLoop_blocks processBlock (fun h p => (h, p)) hstripe hstop
      (fun _ _ _ => rfl) (fun h p hle => ?_) hp (Nat.le_add_left stop p) h
    have hlong : stripe ≤ (source.drop p).length := by
      rw [List.length_drop]
      omega
    have htake : stripe ≤ ((source.drop p).take stripe).length := by
      rw [List.length_take]
      omega
    rw [hprocess h _ hlong, hprocess h _ htake, List.take_take, Nat.min_self]
  rw [hloop, blocks_map setLanes lanes (fun _ _ => rfl) (fun _ _ _ => rfl) (fun _ => rfl)
    (fun u b hb => ?_) hstripe]
  rw [hprocess u b hb.ge, List.take_of_length_le hb.le]

theorem appendRest_eq (hstripe : 0 < stripe) (hprocess : ProcessesBy stripe consume processBlock)
    (hstop : stop ≤ source.length) (hp : p ≤ stop)
    (h : XxHash W) :
    XxHash.appendRest stripe processBlock source stop h p
      = pure { setLanes (blocks stripe consume (lanes h) (window source stop p)) h with
          buf := memcpy h.buf 0 (rest stripe (window source stop p))
          bufLen := (rest stripe (window source stop p)).length } := by
  have hlength := length_window hstop p
  have hle : (rest stripe (window source stop p)).length ≤ stop - p := by
    rw [length_rest, hlength]
    exact Nat.mod_le _ _
  have hback : stop - (stop - (rest stripe (window source stop p)).length)
      = (rest stripe (window source stop p)).length := by omega
  have htail : (source.drop (stop - (rest stripe (window source stop p)).length)).take
      (rest stripe (window source stop p)).length = rest stripe (window source stop p) := by
    conv_rhs => rw [rest_window hstop, window, List.drop_take, hback]
  rw [XxHash.appendRest, takeStripes_eq hstripe hprocess hstop hp, pure_bind]
  dsimp only
  rw [hback, htail]
  rfl

variable {s : List UInt8} {h : XxHash W}

theorem absorbed_rest (hstripe : 0 < stripe) {ahead : List UInt8}
    (hseed : h.seed = seed) (hlength : h.buf.length = stripe)
    (htotal : h.totalLength = UInt64.ofNat s.length)
    (hblocks : blocks stripe consume (lanes h) ahead = blocks stripe consume start s)
    (hrest : rest stripe ahead = rest stripe s) :
    Absorbed stripe consume start seed s
      { setLanes (blocks stripe consume (lanes h) ahead) h with
        buf := memcpy h.buf 0 (rest stripe ahead)
        bufLen := (rest stripe ahead).length } := by
  have hfits : 0 + (rest stripe ahead).length ≤ h.buf.length := by
    have := length_rest_lt hstripe ahead
    omega
  have htake := take_memcpy hfits
  rw [Nat.zero_add, List.take_zero, List.nil_append] at htake
  refine ⟨hseed, hblocks, htotal, (length_memcpy hfits).trans hlength, ?_, ?_⟩
  · rw [hrest]
  · exact htake.trans hrest

theorem ofInt_natCast (n : ℕ) : UInt64.ofInt (n : ℤ) = UInt64.ofNat n := by
  rw [← UInt64.toNat_inj, UInt64.toNat_ofNat', UInt64.ofInt, UInt64.toNat_ofNat']
  have hcast : ((n : ℤ) % 2 ^ 64).toNat = n % 2 ^ 64 := by
    rw [show ((n : ℤ) % 2 ^ 64) = ((n % 2 ^ 64 : ℕ) : ℤ) by push_cast; rfl, Int.toNat_natCast]
  rw [hcast, Nat.mod_mod]

theorem absorbed_short (hstripe : 0 < stripe) {t : List UInt8}
    (hs : Absorbed stripe consume start seed s h) (hshort : h.bufLen + t.length < stripe) :
    Absorbed stripe consume start seed (s ++ t)
      { h with
        totalLength := h.totalLength + UInt64.ofNat t.length
        buf := memcpy h.buf h.bufLen t
        bufLen := h.bufLen + t.length } := by
  have hlt : (rest stripe s ++ t).length < stripe := by
    rw [List.length_append, ← hs.bufLen]
    exact hshort
  have hrest : rest stripe (s ++ t) = rest stripe s ++ t := by
    rw [rest_append hstripe, rest_of_lt hlt]
  have hfits : h.bufLen + t.length ≤ h.buf.length := by
    rw [hs.length_buf]
    exact hshort.le
  refine ⟨hs.seed, ?_, ?_, (length_memcpy hfits).trans hs.length_buf, ?_, ?_⟩
  · rw [blocks_append hstripe, blocks_of_lt _ hlt, ← hs.lanes]
    rfl
  · rw [hs.totalLength, List.length_append, UInt64.ofNat_add]
  · rw [hrest, List.length_append, hs.bufLen]
  · rw [hrest]
    exact (take_memcpy hfits).trans (by rw [hs.waiting])

/-- **One `append` adds its bytes.**  The buffer may be empty, stay short of a stripe, or be
flushed before whole stripes are taken from the source. -/
theorem append_absorbed (hstripe : 0 < stripe) (hprocess : ProcessesBy stripe consume processBlock)
    (hs : Absorbed stripe consume start seed s h)
    {bytes : List UInt8} (hstop : stop ≤ bytes.length) :
    ∃ h', h.append stripe processBlock (some bytes) stop = pure h' ∧
      Absorbed stripe consume start seed (s ++ bytes.take stop) h' := by
  have hlength : (bytes.take stop).length = stop := by
    rw [List.length_take, Nat.min_eq_left hstop]
  have htotal : h.totalLength + UInt64.ofInt (stop : ℤ)
      = UInt64.ofNat (s ++ bytes.take stop).length := by
    rw [ofInt_natCast, hs.totalLength, List.length_append, hlength, UInt64.ofNat_add]
  have hread : (stop : ℤ) ≤ (bytes.length : ℤ) := by exact_mod_cast hstop
  rw [XxHash.append, validateSource_some, pure_bind]
  by_cases hzero : stop = 0
  · grind
  rw [if_neg (by omega)]
  simp only [Option.getD_some, Run.observe_eq_pure hread, pure_bind, Int.toNat_natCast]
  by_cases hbuf : 0 < h.bufLen
  · rw [if_pos hbuf]
    by_cases hneed : stop < stripe - h.bufLen
    · -- the source does not fill the buffer
      have hshort := absorbed_short hstripe hs (t := bytes.take stop) (by omega)
      rw [if_pos hneed, if_pos (by omega)]
      refine ⟨_, rfl, ?_⟩
      rw [hlength] at hshort
      rw [ofInt_natCast]
      exact hshort
    · -- the buffer is filled and flushed
      have hlt := length_rest_lt hstripe s
      rw [← hs.bufLen] at hlt
      have hpiece : (bytes.take (stripe - h.bufLen)).length = stripe - h.bufLen := by
        rw [List.length_take]
        omega
      have hsum : h.bufLen + (stripe - h.bufLen) = stripe := by omega
      have hfits : h.bufLen + (bytes.take (stripe - h.bufLen)).length ≤ h.buf.length := by
        rw [hpiece, hs.length_buf, hsum]
      have hfull := length_memcpy hfits
      rw [hs.length_buf] at hfull
      have hblock : (memcpy h.buf h.bufLen (bytes.take (stripe - h.bufLen))).take stripe
          = rest stripe s ++ bytes.take (stripe - h.bufLen) := by
        have htake := take_memcpy hfits
        rwa [hpiece, hsum, hs.waiting] at htake
      have hsize : (rest stripe s ++ bytes.take (stripe - h.bufLen)).length = stripe := by
        rw [List.length_append, hpiece, ← hs.bufLen, hsum]
      have hsplit : rest stripe s ++ bytes.take stop
          = (rest stripe s ++ bytes.take (stripe - h.bufLen))
            ++ window bytes stop (stripe - h.bufLen) := by
        have htake : bytes.take (stripe - h.bufLen)
            = (bytes.take stop).take (stripe - h.bufLen) := by
          rw [List.take_take, Nat.min_eq_left (by omega)]
        rw [List.append_assoc, window, htake, List.take_append_drop]
      rw [if_neg hneed, if_neg (by omega)]
      rw [hprocess _ _ hfull.ge, appendRest_eq hstripe hprocess hstop (by omega)]
      refine ⟨_, rfl, absorbed_rest hstripe hs.seed hfull htotal ?_ ?_⟩
      · rw [blocks_append hstripe, hsplit, blocks_block hstripe hsize, ← hs.lanes, ← hblock]
        rfl
      · rw [rest_append hstripe, hsplit, rest_block hstripe hsize]
  · -- the buffer is empty
    have hempty : rest stripe s = [] := by
      rw [← List.length_eq_zero_iff, ← hs.bufLen]
      omega
    have hwindow : window bytes stop 0 = bytes.take stop := List.drop_zero
    rw [if_neg hbuf, appendRest_eq hstripe hprocess hstop (Nat.zero_le stop)]
    refine ⟨_, rfl, absorbed_rest hstripe hs.seed hs.length_buf htotal ?_ ?_⟩
    · rw [blocks_append hstripe, hempty, List.nil_append, hwindow, ← hs.lanes]
      rfl
    · rw [rest_append hstripe, hempty, List.nil_append, hwindow]

theorem append_catching (hstripe : 0 < stripe) (hprocess : ProcessesBy stripe consume processBlock)
    (hs : Absorbed stripe consume start seed s h)
    {source : Option (List UInt8)} {length : ℤ} (hread : Readable source length) :
    ∃ h', (h.append stripe processBlock source length).catching h = pure h' ∧
      Absorbed stripe consume start seed (s ++ sourceBytes source length) h' := by
  obtain ⟨e, hthrows, hnone⟩ | ⟨rfl, rfl⟩ | ⟨bytes, stop, rfl, rfl, hstop⟩ := source_cases hread
  · refine ⟨h, ?_, ?_⟩
    · rw [XxHash.append, hthrows]
      rfl
    · rwa [hnone, List.append_nil]
  · have hbytes : sourceBytes none 0 = [] := rfl
    rw [hbytes, List.append_nil]
    exact ⟨h, rfl, hs⟩
  · obtain ⟨h', hrun, hh'⟩ := append_absorbed hstripe hprocess hs hstop
    exact ⟨h', by rw [hrun, Run.catching_pure], hh'⟩

theorem clone_absorbed (hs : Absorbed stripe consume start seed s h) (hstripe : 0 < stripe) :
    Absorbed stripe consume start seed s (h.clone stripe) := by
  have hlt := length_rest_lt hstripe s
  have hpiece : 0 + (h.buf.take h.bufLen).length
      ≤ (List.replicate stripe (0 : UInt8)).length := by
    rw [hs.waiting, List.length_replicate]
    omega
  have htake := take_memcpy hpiece
  rw [hs.waiting, Nat.zero_add, List.take_zero, List.nil_append, ← hs.bufLen] at htake
  refine ⟨hs.seed, hs.lanes, hs.totalLength, ?_, hs.bufLen, ?_⟩
  · exact (length_memcpy hpiece).trans List.length_replicate
  · rw [XxHash.clone, hs.waiting]
    exact htake

variable {prime1 prime2 : W}

theorem absorbed_initState [Add W] [Sub W] (hstripe : 0 < stripe)
    (hseed : h.seed = seed) (htotal : h.totalLength = 0) (hlength : h.buf.length = stripe)
    (hempty : h.bufLen = 0) :
    Absorbed stripe consume (seed + prime1 + prime2, seed + prime2, seed, seed - prime1) seed []
      (h.initState prime1 prime2) := by
  have hrest : rest stripe ([] : List UInt8) = [] := List.drop_nil
  refine ⟨hseed, ?_, htotal, hlength, ?_, ?_⟩
  · rw [blocks_of_lt _ hstripe, ← hseed]
    rfl
  · rw [hrest]
    exact hempty
  · rw [hrest]
    exact (congrArg (fun n => h.buf.take n) hempty).trans List.take_zero

theorem absorbed_reset [Add W] [Sub W] (hstripe : 0 < stripe)
    (hseed : h.seed = seed) (hlength : h.buf.length = stripe) :
    Absorbed stripe consume (seed + prime1 + prime2, seed + prime2, seed, seed - prime1) seed []
      ({ h with totalLength := 0, bufLen := 0 }.initState prime1 prime2) :=
  absorbed_initState hstripe hseed rfl hlength rfl

end Append

/-- A countable number of bytes is as short as its count. -/
theorem if_counted {α : Type} {stripe : ℕ} (hcount : Countable stripe n) (a b : α) :
    (if stripe ≤ n % 2 ^ 64 then a else b) = if n < stripe then b else a := by
  rcases hcount with hshort | hlong
  · rw [if_neg (by omega), if_pos hshort]
  · rw [if_pos hlong, if_neg (by omega)]

/-! ## The tail of `XxHash64` -/

namespace XxHash64

open Model.XxHash64

variable {buf : List UInt8} {stop : ℕ}

theorem tailLanes_eq (hstop : stop ≤ buf.length) (h64 : UInt64) : tailLanes buf stop (h64, 0, stop)
      = pure (blocks 8 XxHash64Function.lane h64 (window buf stop 0),
          stop - (rest 8 (window buf stop 0)).length,
          stop - (stop - (rest 8 (window buf stop 0)).length)) := by
  refine Run.whileLoop_blocks XxHash64Function.lane
    (fun h p => (h, p, stop - p)) (by decide) hstop (fun v p hp => decide_eq_decide.mpr (by omega))
    (fun v p hp => ?_) (Nat.zero_le stop) (Nat.le_add_left stop 0) h64
  have hlong : 8 ≤ (buf.drop p).length := by
    rw [List.length_drop]
    omega
  have hlane : rotl64 (v ^^^ round 0 (readUInt64LittleEndian (buf.drop p))) 27 * prime1 + prime4
      = XxHash64Function.lane v ((buf.drop p).take 8) := by
    rw [readUInt64LittleEndian_eq hlong]
    rfl
  rw [← hlane, ← Nat.sub_sub]

variable {p : ℕ}

theorem tailBytes_eq (hstop : stop ≤ buf.length) (hp : p ≤ stop) (h64 : UInt64) :
    tailBytes buf (stop - p) (h64, p, stop - p)
      = pure (XxHash64Function.bytes h64 (window buf stop p), stop, 0) := by
  refine (Run.whileLoop_each XxHash64Function.byte (fun h p => (h, p, stop - p)) 0 hstop
    (fun v p hp => decide_eq_decide.mpr (by omega)) (fun v p hp => ?_) hp (by omega) h64).trans ?_
  · have hbyte : rotl64 (v ^^^ (buf.getD p 0).toUInt64 * prime5) 11 * prime1
        = XxHash64Function.byte v (buf.getD p 0) := rfl
    rw [← hbyte, ← Nat.sub_sub]
  · rw [Nat.sub_self]
    rfl

theorem converge_eq (h : XxHash UInt64) :
    mergeAccumulator (mergeAccumulator (mergeAccumulator (mergeAccumulator
      (rotl64 h.v1 1 + rotl64 h.v2 7 + rotl64 h.v3 12 + rotl64 h.v4 18) h.v1) h.v2) h.v3) h.v4
      = XxHash64Function.converge (lanes h) := rfl

theorem half_eq (hstop : stop ≤ buf.length) (hp : p ≤ stop) (h64 : UInt64) : (match
        if 4 ≤ stop - p then
          (rotl64 (h64 ^^^ (readUInt32LittleEndian (buf.drop p)).toUInt64 * prime1) 23 * prime2
            + prime3, p + 4, stop - p - 4)
        else (h64, p, stop - p) with
      | (h64, p, remaining) => tailBytes buf remaining (h64, p, remaining))
      = pure (XxHash64Function.half h64 (window buf stop p), stop, 0) := by
  have hlength := length_window hstop p
  unfold XxHash64Function.half
  rw [hlength]
  by_cases hfour : 4 ≤ stop - p
  · have hlong : 4 ≤ (buf.drop p).length := by
      rw [List.length_drop]
      omega
    have htake : (window buf stop p).take 4 = (buf.drop p).take 4 := by
      rw [window, List.drop_take, List.take_take, Nat.min_eq_left hfour]
    rw [if_pos hfour, if_pos hfour, toUInt64_readUInt32LittleEndian hlong, Nat.sub_sub, htake,
      drop_window]
    exact tailBytes_eq hstop (by omega) _
  · rw [if_neg hfour, if_neg hfour]
    exact tailBytes_eq hstop hp _

variable {h : XxHash UInt64}

theorem getCurrentHashAsUInt64_eq (hbuf : h.bufLen ≤ h.buf.length) : getCurrentHashAsUInt64 h
      = pure (XxHash64Function.avalanche (XxHash64Function.tail
          ((if 32 ≤ h.totalLength then XxHash64Function.converge (lanes h) else h.seed + prime5)
            + h.totalLength) (h.buf.take h.bufLen))) := by
  have hwindow : window h.buf h.bufLen 0 = h.buf.take h.bufLen := List.drop_zero
  have hrest : rest 8 (window h.buf h.bufLen 0)
      = window h.buf h.bufLen (h.bufLen - (rest 8 (window h.buf h.bufLen 0)).length) :=
    rest_window hbuf 0
  have hhalf := half_eq hbuf (Nat.sub_le h.bufLen (rest 8 (window h.buf h.bufLen 0)).length)
    (blocks 8 XxHash64Function.lane
      ((if 32 ≤ h.totalLength then XxHash64Function.converge (lanes h) else h.seed + prime5)
        + h.totalLength) (window h.buf h.bufLen 0))
  rw [← hrest] at hhalf
  unfold getCurrentHashAsUInt64
  simp only [converge_eq, tailLanes_eq hbuf, pure_bind]
  dsimp only at hhalf
  rw [hhalf, pure_bind, XxHash64Function.tail, hwindow]
  rfl

theorem processBlock_eq : ProcessesBy 32 XxHash64Function.stripe processBlock :=
  processesBy_words (k := 8) round readUInt64LittleEndian_eq

theorem getCurrentHashCore_eq {w : UInt64} (hw : getCurrentHashAsUInt64 h = pure w) :
    getCurrentHashCore h = pure (bytesOf 8 w.toNat).reverse := by
  have hbytes : (List.range 8).map (fun i => (w >>> (56 - 8 * UInt64.ofNat i)).toUInt8)
      = (bytesOf 8 w.toNat).reverse := by
    simp only [bytesOf, List.reverse_cons, List.reverse_nil, List.nil_append, List.cons_append,
      List.range_succ, List.range_zero, List.map_cons, List.map_nil]
    simp only [List.cons.injEq, ← UInt8.toNat_inj, UInt64.toNat_toUInt8, UInt64.toNat_shiftRight,
      UInt8.toNat_ofNat', Nat.shiftRight_eq_div_pow, Nat.div_div_eq_div_mul, and_true]
    refine ⟨rfl, rfl, rfl, rfl, rfl, rfl, rfl, ?_⟩
    exact congrArg (· % 2 ^ 8) (Nat.div_one w.toNat)
  rw [getCurrentHashCore, hw, pure_bind, hbytes]

/-- The hasher `h`, created with `seed`, stands for the bytes `s`. -/
def Holds (seed : Int64) (s : List UInt8) (h : XxHash UInt64) : Prop :=
  Absorbed 32 XxHash64Function.stripe (XxHash64Function.start seed.toUInt64) seed.toUInt64 s h

variable {s : List UInt8}

variable {seed : Int64}

/-- The hash the class gives: it tells a short input by the number of bytes modulo `2 ^ 64`. -/
def counted (seed : Int64) (s : List UInt8) : UInt64 :=
  XxHash64Function.finish
    (if 32 ≤ s.length % 2 ^ 64 then
      XxHash64Function.converge
        (blocks 32 XxHash64Function.stripe (XxHash64Function.start seed.toUInt64) s)
    else seed.toUInt64 + prime5) s

theorem counted_eq (hcount : Countable 32 s.length) (seed : Int64) :
    counted seed s = xxHash64 seed.toUInt64 s := by
  rw [counted, if_counted hcount, xxHash64]
  split <;> rfl

theorem getCurrentHashAsUInt64_of_holds
    (hs : Holds seed s h) : getCurrentHashAsUInt64 h = pure (counted seed s) := by
  have hlt : (rest 32 s).length < 32 := length_rest_lt (by decide) s
  have hbuf : h.bufLen ≤ h.buf.length := by
    rw [hs.bufLen, hs.length_buf]
    exact hlt.le
  rw [getCurrentHashAsUInt64_eq hbuf, hs.waiting, hs.lanes, hs.seed]
  rw [hs.totalLength]
  rfl

theorem computes_counted :
    xxHash64Hasher.Computes
      (fun seed s => (counted seed s, (bytesOf 8 (counted seed s).toNat).reverse))
      (fun _ => True) Holds where
  create _ := absorbed_initState (by decide) rfl rfl List.length_replicate rfl
  append _ _ _ _ _ hs hread := append_catching (by decide) processBlock_eq hs hread
  clone _ _ _ hs := clone_absorbed hs (by decide)
  reset _ _ _ hs := absorbed_reset (by decide) hs.seed hs.length_buf
  current seed s h hs _ := by
    have hword := getCurrentHashAsUInt64_of_holds hs
    simp only [xxHash64Hasher, hword, getCurrentHashCore_eq hword, pure_bind]

theorem computes : xxHash64Hasher.Computes hashed64 (Countable 32) Holds :=
  computes_counted.congr fun seed s hcount => by
    rw [counted_eq hcount]
    rfl

end XxHash64

/-! ## The tail of `XxHash32` -/

namespace XxHash32

open Model.XxHash32

variable {buf : List UInt8} {stop : ℕ}

theorem tailLanes_eq (hstop : stop ≤ buf.length) (h32 : UInt32) : tailLanes buf stop (h32, 0, stop)
      = pure (blocks 4 XxHash32Function.lane h32 (window buf stop 0),
          stop - (rest 4 (window buf stop 0)).length,
          stop - (stop - (rest 4 (window buf stop 0)).length)) := by
  refine Run.whileLoop_blocks XxHash32Function.lane
    (fun h p => (h, p, stop - p)) (by decide) hstop (fun v p hp => decide_eq_decide.mpr (by omega))
    (fun v p hp => ?_) (Nat.zero_le stop) (Nat.le_add_left stop 0) h32
  have hlong : 4 ≤ (buf.drop p).length := by
    rw [List.length_drop]
    omega
  have hlane : rotl32 (v + readUInt32LittleEndian (buf.drop p) * prime3) 17 * prime4
      = XxHash32Function.lane v ((buf.drop p).take 4) := by
    rw [readUInt32LittleEndian_eq hlong]
    rfl
  rw [← hlane, ← Nat.sub_sub]

theorem tailBytes_eq {p : ℕ} (hstop : stop ≤ buf.length) (hp : p ≤ stop) (h32 : UInt32) :
    tailBytes buf (stop - p) (h32, p, stop - p)
      = pure (XxHash32Function.bytes h32 (window buf stop p), stop, 0) := by
  refine (Run.whileLoop_each XxHash32Function.byte (fun h p => (h, p, stop - p)) 0 hstop
    (fun v p hp => decide_eq_decide.mpr (by omega)) (fun v p hp => ?_) hp (by omega) h32).trans ?_
  · have hbyte : rotl32 (v + (buf.getD p 0).toUInt32 * prime5) 11 * prime1
        = XxHash32Function.byte v (buf.getD p 0) := rfl
    rw [← hbyte, ← Nat.sub_sub]
  · rw [Nat.sub_self]
    rfl

theorem converge_eq (h : XxHash UInt32) :
    rotl32 h.v1 1 + rotl32 h.v2 7 + rotl32 h.v3 12 + rotl32 h.v4 18
      = XxHash32Function.converge (lanes h) := rfl

variable {h : XxHash UInt32}

theorem getCurrentHashAsUInt32_eq (hbuf : h.bufLen ≤ h.buf.length) : getCurrentHashAsUInt32 h
      = pure (XxHash32Function.avalanche (XxHash32Function.tail
          ((if 16 ≤ h.totalLength then XxHash32Function.converge (lanes h) else h.seed + prime5)
            + h.totalLength.toUInt32) (h.buf.take h.bufLen))) := by
  have hwindow : window h.buf h.bufLen 0 = h.buf.take h.bufLen := List.drop_zero
  have hrest : rest 4 (window h.buf h.bufLen 0)
      = window h.buf h.bufLen (h.bufLen - (rest 4 (window h.buf h.bufLen 0)).length) :=
    rest_window hbuf 0
  have hbytes := tailBytes_eq hbuf (Nat.sub_le h.bufLen (rest 4 (window h.buf h.bufLen 0)).length)
    (blocks 4 XxHash32Function.lane
      ((if 16 ≤ h.totalLength then XxHash32Function.converge (lanes h) else h.seed + prime5)
        + h.totalLength.toUInt32) (window h.buf h.bufLen 0))
  rw [← hrest] at hbytes
  unfold getCurrentHashAsUInt32
  simp only [converge_eq, tailLanes_eq hbuf, pure_bind]
  rw [hbytes, pure_bind, XxHash32Function.tail, hwindow]
  rfl

theorem processBlock_eq : ProcessesBy 16 XxHash32Function.stripe processBlock :=
  processesBy_words (k := 4) round readUInt32LittleEndian_eq

theorem getCurrentHashCore_eq {w : UInt32} (hw : getCurrentHashAsUInt32 h = pure w) :
    getCurrentHashCore h = pure (bytesOf 4 w.toNat).reverse := by
  have hbytes : [(w >>> 24).toUInt8, (w >>> 16).toUInt8, (w >>> 8).toUInt8, w.toUInt8]
      = (bytesOf 4 w.toNat).reverse := by
    simp only [bytesOf, List.reverse_cons, List.reverse_nil, List.nil_append, List.cons_append]
    simp only [List.cons.injEq, ← UInt8.toNat_inj, UInt32.toNat_toUInt8, UInt32.toNat_shiftRight,
      UInt8.toNat_ofNat', Nat.shiftRight_eq_div_pow, Nat.div_div_eq_div_mul, and_true]
    exact ⟨rfl, rfl, rfl⟩
  rw [getCurrentHashCore, hw, pure_bind, hbytes]

/-- The hasher `h`, created with `seed`, stands for the bytes `s`. -/
def Holds (seed : Int32) (s : List UInt8) (h : XxHash UInt32) : Prop :=
  Absorbed 16 XxHash32Function.stripe (XxHash32Function.start seed.toUInt32) seed.toUInt32 s h

variable {s : List UInt8}

variable {seed : Int32}

/-- The hash the class gives: it tells a short input by the number of bytes modulo `2 ^ 64`. -/
def counted (seed : Int32) (s : List UInt8) : UInt32 :=
  XxHash32Function.finish
    (if 16 ≤ s.length % 2 ^ 64 then
      XxHash32Function.converge
        (blocks 16 XxHash32Function.stripe (XxHash32Function.start seed.toUInt32) s)
    else seed.toUInt32 + prime5) s

theorem counted_eq (hcount : Countable 16 s.length) (seed : Int32) :
    counted seed s = xxHash32 seed.toUInt32 s := by
  rw [counted, if_counted hcount, xxHash32]
  split <;> rfl

theorem getCurrentHashAsUInt32_of_holds
    (hs : Holds seed s h) : getCurrentHashAsUInt32 h = pure (counted seed s) := by
  have hlt : (rest 16 s).length < 16 := length_rest_lt (by decide) s
  have hbuf : h.bufLen ≤ h.buf.length := by
    rw [hs.bufLen, hs.length_buf]
    exact hlt.le
  rw [getCurrentHashAsUInt32_eq hbuf, hs.waiting, hs.lanes, hs.seed]
  rw [hs.totalLength, UInt64.toUInt32_ofNat']
  rfl

theorem computes_counted :
    xxHash32Hasher.Computes
      (fun seed s => (counted seed s, (bytesOf 4 (counted seed s).toNat).reverse))
      (fun _ => True) Holds where
  create _ := absorbed_initState (by decide) rfl rfl List.length_replicate rfl
  append _ _ _ _ _ hs hread := append_catching (by decide) processBlock_eq hs hread
  clone _ _ _ hs := clone_absorbed hs (by decide)
  reset _ _ _ hs := absorbed_reset (by decide) hs.seed hs.length_buf
  current seed s h hs _ := by
    have hword := getCurrentHashAsUInt32_of_holds hs
    simp only [xxHash32Hasher, hword, getCurrentHashCore_eq hword, pure_bind]

theorem computes : xxHash32Hasher.Computes hashed32 (Countable 16) Holds :=
  computes_counted.congr fun seed s hcount => by
    rw [counted_eq hcount]
    rfl

end XxHash32

/-! ## Programs -/

/-- **The two hashers compute their functions.**  Whatever a program appends, in whatever pieces,
with clones, resets and requests in between, each hash it is given is that of the bytes its hasher
stands for, as long as the 64-bit count of these bytes has not wrapped round to less than a stripe. -/
theorem hashes_of_bytes :
    (∀ calls : List (HashCall Int64), (∀ call ∈ calls, call.Proper) →
      (∀ x ∈ askedBy calls [], Countable 32 x.2.length) →
      ∃ pool, xxHash64Hasher.run calls []
        = pure (pool, (askedBy calls []).map fun x => hashed64 x.1 x.2)) ∧
    (∀ calls : List (HashCall Int32), (∀ call ∈ calls, call.Proper) →
      (∀ x ∈ askedBy calls [], Countable 16 x.2.length) →
      ∃ pool, xxHash32Hasher.run calls []
        = pure (pool, (askedBy calls []).map fun x => hashed32 x.1 x.2)) := by
  constructor
  · intro calls hproper hcount
    obtain ⟨pool, hrun, -⟩ :=
      Hasher.run_eq XxHash64.computes List.Forall₂.nil hproper hcount
    exact ⟨pool, hrun⟩
  · intro calls hproper hcount
    obtain ⟨pool, hrun, -⟩ :=
      Hasher.run_eq XxHash32.computes List.Forall₂.nil hproper hcount
    exact ⟨pool, hrun⟩

/-- A program that appends `abc` in two pieces and in one, with a clone and a reset between. -/
theorem hashes_of_bytes_pieces :
    ∃ pool, xxHash64Hasher.run
        [.create 7, .append 0 (some [97]) 1, .clone 0, .append 1 (some [98, 99]) 2, .current 1,
          .reset 0, .append 0 (some [97, 98, 99]) 3, .current 0] []
      = pure (pool, [hashed64 7 [97, 98, 99], hashed64 7 [97, 98, 99]]) := by
  refine hashes_of_bytes.1 _ ?_ ?_
  · simp [HashCall.Proper, Readable]
  · intro x hx
    have hlist : x ∈ [((7 : Int64), ([97, 98, 99] : List UInt8)), (7, [97, 98, 99])] := hx
    left
    simp only [List.mem_cons, List.not_mem_nil, or_false, or_self] at hlist
    rw [hlist]
    decide

/-! ## Counts that wrap round -/

/-- A stripe that leaves the four lanes of the seed zero as they are. -/
def stillStripe : List UInt8 :=
  [0, 34, 108, 29, 111, 133, 110, 216, 73, 33, 76, 228, 53, 6, 180, 175,
    0, 0, 0, 0, 0, 0, 0, 0, 154, 179, 82, 176, 172, 135, 184, 248]

theorem stripe_stillStripe :
    XxHash64Function.stripe (XxHash64Function.start 0) stillStripe = XxHash64Function.start 0 := by
  decide

def stillBytes (n : ℕ) : List UInt8 := (List.replicate n stillStripe).flatten

theorem length_stillBytes (n : ℕ) : (stillBytes n).length = n * 32 := by
  rw [stillBytes, List.length_flatten, List.map_replicate, List.sum_replicate_nat]
  rfl

variable (m : ℕ)

theorem flatten_replicate_stillBytes (n : ℕ) :
    (List.replicate m (stillBytes n)).flatten = stillBytes (m * n) := by
  induction m with
  | zero => rw [Nat.zero_mul]; rfl
  | succ m ih =>
    rw [List.replicate_succ, List.flatten_cons, ih, stillBytes, stillBytes, stillBytes,
      ← List.flatten_append, List.replicate_append_replicate, Nat.succ_mul, Nat.add_comm n]

/-- Appending the same source again and again, and asking once. -/
def repeated (m : ℕ) (bytes : List UInt8) (length : ℤ) : List (HashCall Int64) :=
  .create 0 :: (List.replicate m (.append 0 (some bytes) length) ++ [.current 0])

theorem askedBy_repeated (bytes : List UInt8) :
    askedBy (repeated m bytes bytes.length) [] = [(0, (List.replicate m bytes).flatten)] := by
  have hbytes : sourceBytes (some bytes) (bytes.length : ℤ) = bytes := by
    rw [sourceBytes, Option.getD_some, Int.toNat_natCast, List.take_length]
  have hloop : ∀ s : List UInt8,
      askedBy (List.replicate m (.append 0 (some bytes) bytes.length) ++ [.current 0])
        [((0 : Int64), s)] = [(0, s ++ (List.replicate m bytes).flatten)] := by
    induction m with
    | zero =>
      intro s
      rw [List.replicate_zero, List.nil_append, List.replicate_zero, List.flatten_nil,
        List.append_nil]
      rfl
    | succ m ih =>
      intro s
      have hcontents : HashCall.contents [((0 : Int64), s)]
          (.append 0 (some bytes) bytes.length) = [(0, s ++ bytes)] := by
        simp only [HashCall.contents, hbytes]
        rfl
      rw [List.replicate_succ, List.cons_append, askedBy, hcontents, ih, List.replicate_succ,
        List.flatten_cons, List.append_assoc]
      rfl
  have hstart := hloop []
  exact hstart

theorem proper_repeated (bytes : List UInt8) :
    ∀ call ∈ repeated m bytes bytes.length, call.Proper := by
  intro call hcall
  rw [repeated, List.mem_cons, List.mem_append, List.mem_singleton] at hcall
  rcases hcall with rfl | hcall | rfl
  · trivial
  · rw [List.eq_of_mem_replicate hcall]
    intro bytes' hbytes
    obtain rfl : bytes = bytes' := Option.some.inj hbytes
    exact le_rfl
  · trivial

/-- The two values after `2 ^ 64` bytes that leave the lanes as they are: the class makes the hash
from the seed, the function from the lanes. -/
theorem counted_stillBytes (hn : n * 32 = 2 ^ 64) : XxHash64.counted 0 (stillBytes n)
        = XxHash64Function.avalanche (XxHash64Function.half Model.XxHash64.prime5 []) ∧
      xxHash64 0 (stillBytes n)
        = XxHash64Function.avalanche (XxHash64Function.half
            (XxHash64Function.converge (XxHash64Function.start 0)) []) := by
  have hlength : (stillBytes n).length = 2 ^ 64 := (length_stillBytes n).trans hn
  have hrest : rest 32 (stillBytes n) = [] := by
    rw [← List.length_eq_zero_iff, length_rest, length_stillBytes, Nat.mul_mod_left]
  have hzero : UInt64.ofNat (2 ^ 64) = 0 := by decide
  have hblocks : blocks 32 XxHash64Function.stripe (XxHash64Function.start 0) (stillBytes n)
      = XxHash64Function.start 0 :=
    blocks_replicate (by decide) (by decide) stripe_stillStripe n
  have htail : ∀ acc, XxHash64Function.finish acc (stillBytes n)
      = XxHash64Function.avalanche (XxHash64Function.half acc []) := by
    intro acc
    have hnil : rest 8 ([] : List UInt8) = [] := List.drop_nil
    rw [XxHash64Function.finish, hrest, hlength, hzero, UInt64.add_zero, XxHash64Function.tail, hnil,
      blocks_of_lt acc (by decide)]
  constructor
  · rw [XxHash64.counted, hlength, if_neg (by decide), htail]
    rfl
  · rw [xxHash64, hlength, if_neg (by decide), hblocks, htail]

/-- **A count that has wrapped round loses the lanes.**  After `2 ^ 64` bytes, appended in pieces of
`2 ^ 30`, the count is zero again and the hash is made as for a short input. -/
theorem count_wraps :
    (∀ call ∈ repeated (2 ^ 34) (stillBytes (2 ^ 25)) (2 ^ 30), call.Proper) ∧
    askedBy (repeated (2 ^ 34) (stillBytes (2 ^ 25)) (2 ^ 30)) [] = [(0, stillBytes (2 ^ 59))] ∧
    ∃ pool r, xxHash64Hasher.run (repeated (2 ^ 34) (stillBytes (2 ^ 25)) (2 ^ 30)) []
        = pure (pool, [r]) ∧ r ≠ hashed64 0 (stillBytes (2 ^ 59)) := by
  have hpiece : ((2 : ℤ) ^ 30) = ((stillBytes (2 ^ 25)).length : ℤ) := by
    rw [length_stillBytes]
    norm_num
  have hproper := proper_repeated (2 ^ 34) (stillBytes (2 ^ 25))
  have hasked := askedBy_repeated (2 ^ 34) (stillBytes (2 ^ 25))
  rw [flatten_replicate_stillBytes, ← pow_add] at hasked
  obtain ⟨pool, hrun, -⟩ := Hasher.run_eq XxHash64.computes_counted List.Forall₂.nil hproper
    fun _ _ => trivial
  rw [hasked] at hrun
  rw [hpiece]
  refine ⟨hproper, hasked, pool, _, hrun, fun heq => ?_⟩
  obtain ⟨hclass, hfunction⟩ := counted_stillBytes (n := 2 ^ 59) (by norm_num)
  have hwords := (Prod.mk.inj heq).1
  have hseed : (0 : Int64).toUInt64 = 0 := by decide
  rw [hseed, hfunction] at hwords
  have hdiffer : XxHash64Function.avalanche (XxHash64Function.half Model.XxHash64.prime5 [])
      ≠ XxHash64Function.avalanche (XxHash64Function.half
          (XxHash64Function.converge (XxHash64Function.start 0)) []) := by decide +kernel
  exact hdiffer (hclass.symm.trans hwords)

end SharpRuntime.Analysis.XxHashChunks
