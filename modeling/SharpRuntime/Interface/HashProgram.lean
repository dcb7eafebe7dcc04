import SharpRuntime.Model.Hashing
import SharpRuntime.Machine.BitPolynomial
import SharpRuntime.Machine.BlockBuffer

/-!
# Programs over hash algorithms

A program creates hashers, appends to them, clones and resets them and asks for their hashes, in any
order.  A hasher stands for its seed and the bytes appended since it was created or reset; a refused
`append` adds none.  `Hasher.Computes` is what an algorithm must provide for `Hasher.run_eq`: the
hashes any program is given are those of the bytes.
-/

set_option autoImplicit false

namespace SharpRuntime.Interface

open Machine Model

variable {Seed S R : Type}

/-- The operations of a hash algorithm with states `S` and results `R`. -/
structure Hasher (Seed S R : Type) where
  create : Seed → S
  append : S → Option (List UInt8) → ℤ → Run Exception S
  clone : S → S
  reset : S → S
  getCurrentHash : S → Run Exception R

/-- One statement of a program; a hasher is named by the order of its creation. -/
inductive HashCall (Seed : Type) where
  | create (seed : Seed)
  | append (i : ℕ) (source : Option (List UInt8)) (length : ℤ)
  | clone (i : ℕ)
  | reset (i : ℕ)
  | current (i : ℕ)

namespace HashCall

def contents (pool : List (Seed × List UInt8)) : HashCall Seed → List (Seed × List UInt8)
  | create seed => pool ++ [(seed, [])]
  | append i source length =>
    pool.modify i fun (seed, s) => (seed, s ++ sourceBytes source length)
  | clone i => pool ++ pool[i]?.toList
  | reset i => pool.modify i fun (seed, _) => (seed, [])
  | current _ => pool

def asked (pool : List (Seed × List UInt8)) : HashCall Seed → List (Seed × List UInt8)
  | current i => pool[i]?.toList
  | _ => []

def Proper : HashCall Seed → Prop
  | append _ source length => Readable source length
  | _ => True

end HashCall

def contentsAfter (calls : List (HashCall Seed)) (pool : List (Seed × List UInt8)) :
    List (Seed × List UInt8) :=
  calls.foldl HashCall.contents pool

/-- The seeds and bytes whose hashes a program asks for, in order. -/
def askedBy : List (HashCall Seed) → List (Seed × List UInt8) → List (Seed × List UInt8)
  | [], _ => []
  | call :: calls, pool => call.asked pool ++ askedBy calls (call.contents pool)

namespace Hasher

variable (H : Hasher Seed S R)

/-- One call: the hashers after it and the hash it returned.  A call that throws leaves its hasher
as it was. -/
def step (pool : List S) : HashCall Seed → Run Exception (List S × List R)
  | .create seed => pure (pool ++ [H.create seed], [])
  | .append i source length =>
    match pool[i]? with
    | none => pure (pool, [])
    | some h => do
      let h' ← (H.append h source length).catching h
      pure (pool.modify i fun _ => h', [])
  | .clone i => pure (pool ++ pool[i]?.toList.map H.clone, [])
  | .reset i => pure (pool.modify i H.reset, [])
  | .current i =>
    match pool[i]? with
    | none => pure (pool, [])
    | some h => do
      let r ← H.getCurrentHash h
      pure (pool, [r])

/-- A program: the hashers after it and the hashes it was given, in order. -/
def run : List (HashCall Seed) → List S → Run Exception (List S × List R)
  | [], pool => pure (pool, [])
  | call :: calls, pool => do
    let (pool, given) ← H.step pool call
    let (pool, later) ← run calls pool
    pure (pool, given ++ later)

/-- What an algorithm provides so that its hashes are `f` of the bytes, for the numbers of bytes
in `ok`: `Holds seed s h` says that the hasher `h` stands for `s`. -/
structure Computes (f : Seed → List UInt8 → R) (ok : ℕ → Prop)
    (Holds : Seed → List UInt8 → S → Prop) : Prop where
  create : ∀ seed, Holds seed [] (H.create seed)
  append : ∀ seed s h source length, Holds seed s h → Readable source length →
    ∃ h', (H.append h source length).catching h = pure h' ∧
      Holds seed (s ++ sourceBytes source length) h'
  clone : ∀ seed s h, Holds seed s h → Holds seed s (H.clone h)
  reset : ∀ seed s h, Holds seed s h → Holds seed [] (H.reset h)
  current : ∀ seed s h, Holds seed s h → ok s.length → H.getCurrentHash h = pure (f seed s)

variable {H}
variable {f : Seed → List UInt8 → R} {ok : ℕ → Prop} {Holds : Seed → List UInt8 → S → Prop}

theorem Computes.congr (h : H.Computes f (fun _ => True) Holds) {g : Seed → List UInt8 → R}
    (hfg : ∀ seed s, ok s.length → f seed s = g seed s) : H.Computes g ok Holds :=
  { h with
    current := fun seed s state hs hok =>
      (h.current seed s state hs trivial).trans (congrArg pure (hfg seed s hok)) }

def PoolHolds (Holds : Seed → List UInt8 → S → Prop) : List (Seed × List UInt8) → List S → Prop :=
  List.Forall₂ fun x h => Holds x.1 x.2 h

variable {xs : List (Seed × List UInt8)} {pool : List S}

theorem PoolHolds.get? (h : PoolHolds Holds xs pool) (i : ℕ) : (xs[i]? = none ∧ pool[i]? = none) ∨
      ∃ x s, xs[i]? = some x ∧ pool[i]? = some s ∧ Holds x.1 x.2 s := by
  induction h generalizing i with
  | nil => exact Or.inl ⟨List.getElem?_nil, List.getElem?_nil⟩
  | cons hx _ ih =>
    cases i with
    | zero => exact Or.inr ⟨_, _, List.getElem?_cons_zero, List.getElem?_cons_zero, hx⟩
    | succ i =>
      exact ih i

theorem PoolHolds.modify
    {g : Seed × List UInt8 → Seed × List UInt8} {k : S → S} (h : PoolHolds Holds xs pool) (i : ℕ)
    (hg : ∀ x s, xs[i]? = some x → pool[i]? = some s → Holds x.1 x.2 s →
      Holds (g x).1 (g x).2 (k s)) :
    PoolHolds Holds (xs.modify i g) (pool.modify i k) := by
  induction h generalizing i with
  | nil =>
    simp only [List.modify_nil]
    exact List.Forall₂.nil
  | cons hx htail ih =>
    cases i with
    | zero =>
      exact List.Forall₂.cons (hg _ _ List.getElem?_cons_zero List.getElem?_cons_zero hx) htail
    | succ i =>
      refine List.Forall₂.cons hx (ih i ?_)
      intro x s hxs hpool
      exact hg x s (by rw [List.getElem?_cons_succ]; exact hxs)
        (by rw [List.getElem?_cons_succ]; exact hpool)

theorem PoolHolds.append {ys : List (Seed × List UInt8)} {more : List S}
    (h : PoolHolds Holds xs pool) (hmore : PoolHolds Holds ys more) :
    PoolHolds Holds (xs ++ ys) (pool ++ more) :=
  List.rel_append h hmore

theorem step_eq (hH : H.Computes f ok Holds)
    (hpool : PoolHolds Holds xs pool) {call : HashCall Seed} (hproper : call.Proper)
    (hok : ∀ x ∈ call.asked xs, ok x.2.length) :
    ∃ pool', H.step pool call = pure (pool', (call.asked xs).map fun x => f x.1 x.2) ∧
      PoolHolds Holds (call.contents xs) pool' := by
  cases call with
  | create seed =>
    exact ⟨_, rfl, hpool.append (List.Forall₂.cons (hH.create seed) List.Forall₂.nil)⟩
  | append i source length =>
    rcases hpool.get? i with ⟨hxs, hnone⟩ | ⟨x, h, hxs, hsome, hx⟩
    · refine ⟨pool, ?_, ?_⟩
      · simp only [step, hnone]
        rfl
      · rw [HashCall.contents, List.modify_eq_self (by simpa using hxs)]
        exact hpool
    · obtain ⟨h', hrun, hholds⟩ := hH.append x.1 x.2 h source length hx hproper
      refine ⟨pool.modify i fun _ => h', ?_, ?_⟩
      · simp only [step, hsome, hrun, pure_bind]
        rfl
      · refine hpool.modify i fun y s hy hs _ => ?_
        obtain rfl : x = y := Option.some.inj (hxs.symm.trans hy)
        exact hholds
  | clone i =>
    refine ⟨_, rfl, hpool.append ?_⟩
    rcases hpool.get? i with ⟨hxs, hnone⟩ | ⟨x, h, hxs, hsome, hx⟩
    · rw [hxs, hnone]
      exact List.Forall₂.nil
    · rw [hxs, hsome]
      exact List.Forall₂.cons (hH.clone x.1 x.2 h hx) List.Forall₂.nil
  | reset i => exact ⟨_, rfl, hpool.modify i fun x s _ _ hx => hH.reset x.1 x.2 s hx⟩
  | current i =>
    rcases hpool.get? i with ⟨hxs, hnone⟩ | ⟨x, h, hxs, hsome, hx⟩
    · refine ⟨pool, ?_, hpool⟩
      simp only [step, hnone, HashCall.asked, hxs]
      rfl
    · refine ⟨pool, ?_, hpool⟩
      have hask : ok x.2.length := by
        apply hok
        simp only [HashCall.asked, hxs, Option.toList_some, List.mem_singleton]
      simp only [step, hsome, HashCall.asked, hxs, hH.current x.1 x.2 h hx hask, pure_bind]
      rfl

theorem run_eq (hH : H.Computes f ok Holds) {calls : List (HashCall Seed)} (hpool : PoolHolds Holds xs pool)
    (hproper : ∀ call ∈ calls, call.Proper) (hok : ∀ x ∈ askedBy calls xs, ok x.2.length) :
    ∃ pool', H.run calls pool = pure (pool', (askedBy calls xs).map fun x => f x.1 x.2) ∧
      PoolHolds Holds (contentsAfter calls xs) pool' := by
  induction calls generalizing xs pool with
  | nil => exact ⟨pool, rfl, hpool⟩
  | cons call calls ih =>
    obtain ⟨pool₁, hstep, hpool₁⟩ := step_eq hH hpool (hproper call List.mem_cons_self)
      fun x hx => hok x (List.mem_append_left _ hx)
    obtain ⟨pool₂, hrun, hpool₂⟩ := ih hpool₁
      (fun c hc => hproper c (List.mem_cons_of_mem _ hc))
      fun x hx => hok x (List.mem_append_right _ hx)
    refine ⟨pool₂, ?_, hpool₂⟩
    rw [run, hstep, pure_bind]
    dsimp only
    rw [hrun, pure_bind, askedBy, List.map_append]

end Hasher

end SharpRuntime.Interface

/-!
# Cyclic redundancy checks

The bits of a message, each byte from its highest bit down or, when bits are reflected, from its
lowest bit up, are fed to a register with feedback (`crcRegister`); that of a reflected check is
read with its bits reversed.  The register holds a remainder over the field of two elements
(`crcRemainder`).
-/

namespace SharpRuntime.Interface

open Machine Model Polynomial

variable {w : ℕ}

def oriented (reflect : Bool) (v : BitVec w) : BitVec w := if reflect then v.reverse else v

def messageBits (reflect : Bool) (s : List UInt8) : List Bool :=
  s.flatMap fun b => bitsOf (oriented reflect b.toBitVec)

/-- The check of `s`, one bit at a time, from the value `v` on. -/
def crcRegister (polynomial : BitVec w) (reflect : Bool) (v : BitVec w) (s : List UInt8) :
    BitVec w :=
  oriented reflect (feed polynomial (oriented reflect v) (messageBits reflect s))

/-- The check of `s` as a remainder of polynomials, from the value `v` on. -/
noncomputable def crcRemainder (polynomial : BitVec w) (reflect : Bool) (v : BitVec w)
    (s : List UInt8) : BitVec w :=
  oriented reflect (ofPoly w
    ((X ^ (8 * s.length) * toPoly (oriented reflect v) + X ^ w * ofBits (messageBits reflect s))
      %ₘ generator polynomial))

def xorBytes (s t : List UInt8) : List UInt8 := List.zipWith (· ^^^ ·) s t

/-- What a parameter set computes: the check of every message, in one piece or in several, affine
in the bits of the message. -/
structure ComputesCrc (polynomial initialValue finalXorValue : BitVec w) (reflect : Bool)
    (set : CrcParameterSet w) : Prop where
  register : ∀ v s, set.update v (some s) s.length = pure (crcRegister polynomial reflect v s)
  remainder : ∀ v s, crcRegister polynomial reflect v s = crcRemainder polynomial reflect v s
  finalized : ∀ s, set.finalize <$> set.update set.initialValue (some s) s.length
    = pure (crcRemainder polynomial reflect initialValue s ^^^ finalXorValue)
  concatenation : ∀ v s t, set.update v (some (s ++ t)) (s ++ t).length
    = set.update v (some s) s.length >>= fun u => set.update u (some t) t.length
  affine : ∀ v s t, s.length = t.length →
    set.update v (some (xorBytes s t)) (xorBytes s t).length
      = (do
          let a ← set.update v (some s) s.length
          let b ← set.update 0 (some t) t.length
          pure (a ^^^ b))

/-- The check of a message under the values of a parameter set, its table left aside. -/
noncomputable def crcCheck (set : CrcParameterSet w) (s : List UInt8) : BitVec w :=
  crcRemainder set.polynomial set.reflectValues set.initialValue s ^^^ set.finalXorValue

/-- The type of `create`: it is given the values of the set. -/
abbrev SetMaker (w : ℕ) :=
  (polynomial initialValue finalXorValue : BitVec w) → (reflectValues : Bool) →
    Run Exception (CrcParameterSet w)

/-- The parameter sets that `create` makes. -/
def CreatedSet (create : SetMaker w) : Type :=
  { set : CrcParameterSet w //
    create set.polynomial set.initialValue set.finalXorValue set.reflectValues = pure set }

def crcHasher (create : SetMaker w) : Hasher (CreatedSet create) (Crc w) (BitVec w) where
  create set := Crc.create set.1
  append := Crc.append
  clone := Crc.clone
  reset := Crc.reset
  getCurrentHash h := pure h.getCurrentHash

end SharpRuntime.Interface

/-!
# The functions xxHash32 and xxHash64

The two functions of a whole byte sequence.  Four lanes take the whole stripes, each lane the
little-endian word at its place in the stripe; the lanes are merged, or the seed stands in for
them when there is no whole stripe; the length is added, the bytes after the last stripe follow
word by word and then byte by byte, and the bits are mixed a last time.  Everything is modulo
`2 ^ 32` or `2 ^ 64`.
-/

namespace SharpRuntime.Interface

open Machine Model

abbrev Lanes (W : Type) := W × W × W × W

namespace XxHash64Function

def prime1 : UInt64 := 0x9E3779B185EBCA87
def prime2 : UInt64 := 0xC2B2AE3D27D4EB4F
def prime3 : UInt64 := 0x165667B19E3779F9
def prime4 : UInt64 := 0x85EBCA77C2B2AE63
def prime5 : UInt64 := 0x27D4EB2F165667C5

def rotate (x : UInt64) (n : ℕ) : UInt64 := ⟨x.toBitVec.rotateLeft n⟩

def word (s : List UInt8) : UInt64 := UInt64.ofNat (ofBytes s)

def start (seed : UInt64) : Lanes UInt64 :=
  (seed + prime1 + prime2, seed + prime2, seed, seed - prime1)

def round (acc lane : UInt64) : UInt64 := rotate (acc + lane * prime2) 31 * prime1

def stripe (v : Lanes UInt64) (s : List UInt8) : Lanes UInt64 :=
  (round v.1 (word (s.take 8)), round v.2.1 (word ((s.drop 8).take 8)),
    round v.2.2.1 (word ((s.drop 16).take 8)), round v.2.2.2 (word ((s.drop 24).take 8)))

def merge (acc lane : UInt64) : UInt64 := (acc ^^^ round 0 lane) * prime1 + prime4

def converge (v : Lanes UInt64) : UInt64 :=
  merge (merge (merge (merge
    (rotate v.1 1 + rotate v.2.1 7 + rotate v.2.2.1 12 + rotate v.2.2.2 18)
    v.1) v.2.1) v.2.2.1) v.2.2.2

def byte (acc : UInt64) (b : UInt8) : UInt64 :=
  rotate (acc ^^^ b.toUInt64 * prime5) 11 * prime1

def bytes (acc : UInt64) (s : List UInt8) : UInt64 := s.foldl byte acc

def half (acc : UInt64) (s : List UInt8) : UInt64 :=
  if 4 ≤ s.length then
    bytes (rotate (acc ^^^ word (s.take 4) * prime1) 23 * prime2 + prime3) (s.drop 4)
  else bytes acc s

def lane (acc : UInt64) (s : List UInt8) : UInt64 :=
  rotate (acc ^^^ round 0 (word s)) 27 * prime1 + prime4

def tail (acc : UInt64) (s : List UInt8) : UInt64 := half (blocks 8 lane acc s) (rest 8 s)

def avalanche (h : UInt64) : UInt64 :=
  let h := (h ^^^ h >>> 33) * prime2
  let h := (h ^^^ h >>> 29) * prime3
  h ^^^ h >>> 32

def finish (acc : UInt64) (s : List UInt8) : UInt64 :=
  avalanche (tail (acc + UInt64.ofNat s.length) (rest 32 s))

end XxHash64Function

open XxHash64Function in
/-- **xxHash64 of a byte sequence.** -/
def xxHash64 (seed : UInt64) (s : List UInt8) : UInt64 :=
  if s.length < 32 then finish (seed + prime5) s
  else finish (converge (blocks 32 stripe (start seed) s)) s

namespace XxHash32Function

def prime1 : UInt32 := 0x9E3779B1
def prime2 : UInt32 := 0x85EBCA77
def prime3 : UInt32 := 0xC2B2AE3D
def prime4 : UInt32 := 0x27D4EB2F
def prime5 : UInt32 := 0x165667B1

def rotate (x : UInt32) (n : ℕ) : UInt32 := ⟨x.toBitVec.rotateLeft n⟩

def word (s : List UInt8) : UInt32 := UInt32.ofNat (ofBytes s)

def start (seed : UInt32) : Lanes UInt32 :=
  (seed + prime1 + prime2, seed + prime2, seed, seed - prime1)

def round (acc lane : UInt32) : UInt32 := rotate (acc + lane * prime2) 13 * prime1

def stripe (v : Lanes UInt32) (s : List UInt8) : Lanes UInt32 :=
  (round v.1 (word (s.take 4)), round v.2.1 (word ((s.drop 4).take 4)),
    round v.2.2.1 (word ((s.drop 8).take 4)), round v.2.2.2 (word ((s.drop 12).take 4)))

def converge (v : Lanes UInt32) : UInt32 :=
  rotate v.1 1 + rotate v.2.1 7 + rotate v.2.2.1 12 + rotate v.2.2.2 18

def byte (acc : UInt32) (b : UInt8) : UInt32 :=
  rotate (acc + b.toUInt32 * prime5) 11 * prime1

def bytes (acc : UInt32) (s : List UInt8) : UInt32 := s.foldl byte acc

def lane (acc : UInt32) (s : List UInt8) : UInt32 :=
  rotate (acc + word s * prime3) 17 * prime4

def tail (acc : UInt32) (s : List UInt8) : UInt32 := bytes (blocks 4 lane acc s) (rest 4 s)

def avalanche (h : UInt32) : UInt32 :=
  let h := (h ^^^ h >>> 15) * prime2
  let h := (h ^^^ h >>> 13) * prime3
  h ^^^ h >>> 16

def finish (acc : UInt32) (s : List UInt8) : UInt32 :=
  avalanche (tail (acc + UInt32.ofNat s.length) (rest 16 s))

end XxHash32Function

open XxHash32Function in
/-- **xxHash32 of a byte sequence.** -/
def xxHash32 (seed : UInt32) (s : List UInt8) : UInt32 :=
  if s.length < 16 then finish (seed + prime5) s
  else finish (converge (blocks 16 stripe (start seed) s)) s

def xxHash64Hasher : Hasher Int64 (XxHash UInt64) (UInt64 × List UInt8) where
  create seed := XxHash64.create seed.toUInt64
  append := XxHash64.append
  clone := XxHash64.clone
  reset := XxHash64.reset
  getCurrentHash h := do
    let h64 ← XxHash64.getCurrentHashAsUInt64 h
    let destination ← XxHash64.getCurrentHashCore h
    pure (h64, destination)

def xxHash32Hasher : Hasher Int32 (XxHash UInt32) (UInt32 × List UInt8) where
  create seed := XxHash32.create seed.toUInt32
  append := XxHash32.append
  clone := XxHash32.clone
  reset := XxHash32.reset
  getCurrentHash h := do
    let h32 ← XxHash32.getCurrentHashAsUInt32 h
    let destination ← XxHash32.getCurrentHashCore h
    pure (h32, destination)

/-- The hash of `s` as a word and as its eight bytes, the highest first. -/
def hashed64 (seed : Int64) (s : List UInt8) : UInt64 × List UInt8 :=
  (xxHash64 seed.toUInt64 s, (bytesOf 8 (xxHash64 seed.toUInt64 s).toNat).reverse)

/-- The hash of `s` as a word and as its four bytes, the highest first. -/
def hashed32 (seed : Int32) (s : List UInt8) : UInt32 × List UInt8 :=
  (xxHash32 seed.toUInt32 s, (bytesOf 4 (xxHash32 seed.toUInt32 s).toNat).reverse)

/-- The numbers of bytes a 64-bit count tells apart as the functions do: those with no whole
stripe, and those whose count has not wrapped round to less than one. -/
def Countable (stripe n : ℕ) : Prop := n < stripe ∨ stripe ≤ n % 2 ^ 64

/-!
# Adler-32

The check of a message by its definition: one more than the sum of its bytes, and the sum of the
values that this sum takes byte after byte, both modulo the largest prime below 65536.
-/

def byteSum (s : List UInt8) : ℕ := 1 + (s.map UInt8.toNat).sum

def sumOfSums (s : List UInt8) : ℕ :=
  ((List.range s.length).map fun i => byteSum (s.take (i + 1))).sum

/-- **Adler-32 of a byte sequence.** -/
def adler32 (s : List UInt8) : UInt32 :=
  (UInt32.ofNat (sumOfSums s % 65521) <<< 16) ||| UInt32.ofNat (byteSum s % 65521)

def adler32Hasher : Hasher Unit Adler32 UInt32 where
  create _ := Adler32.create
  append := Adler32.append
  clone := Adler32.clone
  reset := Adler32.reset
  getCurrentHash h := pure h.getCurrentHashAsUInt32

end SharpRuntime.Interface
