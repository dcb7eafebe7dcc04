import SharpRuntime.Machine.Utf16
import SharpRuntime.Machine.Utf8
import SharpRuntime.Model.Utf8Transcoder

/-!
# Texts in UTF-16 and UTF-32

What the two encodings are for: bytes are units of a code of scalars, laid out in one order or the
other, and the text of some bytes is the UTF-8 of their scalars, with U+FFFD for what is none.
-/

set_option autoImplicit false

namespace SharpRuntime.Interface

open Machine Model

variable {β : Type} (code : ScalarCode β) (layout : ByteLayout β)

/-- The scalars of some bytes; a unit that is none, and a rest that is no unit, is U+FFFD. -/
def scalarsOf (bytes : List UInt8) : List ℕ :=
  (code.bytes layout).replaced (ScalarCode.unitwise layout) bytes

def textOf (bytes : List UInt8) : List UInt8 := utf8.encodeAll (scalarsOf code layout bytes)

def StartsWithMark (bytes : List UInt8) : Prop := (code.bytes layout).encode 0xFEFF <+: bytes

/-- A decoding of some bytes that loses nothing: well-formed text, in which every run of scalars
stands where it stood, and U+FFFD for the rest. -/
structure Decodes (bytes out : List UInt8) : Prop where
  text : out = textOf code layout bytes
  wellFormed : utf8.WellFormed out
  runs : ∀ pre run post, layout.width ∣ pre.length → (∀ c ∈ run, Scalar c) → run ≠ [] →
    bytes = pre ++ ((code.bytes layout).encodeAll run ++ post) →
    out = textOf code layout pre ++ (utf8.encodeAll run ++ textOf code layout post)

theorem decodes_iff (hsync : code.Synchronizes) {bytes out : List UInt8} :
    Decodes code layout bytes out ↔ out = textOf code layout bytes := by
  constructor
  · exact Decodes.text
  · rintro rfl
    refine ⟨rfl, ⟨_, ScalarCode.scalar_of_mem_replaced _ _, rfl⟩, ?_⟩
    rintro pre run post hpre hrun hne rfl
    rw [textOf, scalarsOf, code.bytes_replaced_run layout hsync hpre hrun hne,
      ScalarCode.encodeAll_append, ScalarCode.encodeAll_append]
    rfl

/-- What an encoding keeps, and exactly when: the text of a string without a mark whose bytes the
count of `getString` can count, and the text of such bytes.  It always stays inside its buffer, and
what it returns is always well-formed. -/
structure KeepsTextIff (getBytes getString : List UInt8 → Run Exception (List UInt8)) : Prop where
  roundTrip : ∀ s, utf8.WellFormed s →
    (getBytes s >>= getString = pure s ↔
      ¬ utf8.encode 0xFEFF <+: s ∧
        (code.encodeAll (utf8.replaced 0 s)).length * layout.width ≤ intcsMax)
  inBuffer : ∀ s, ∃ bytes, getBytes s = pure bytes
  decodes : ∀ bytes, (∃ out, getString bytes = pure out ∧ Decodes code layout bytes out) ↔
    ¬ StartsWithMark code layout bytes ∧ bytes.length ≤ intcsMax
  wellFormed : ∀ bytes out, getString bytes = pure out → utf8.WellFormed out

end SharpRuntime.Interface

/-!
# What a transcoder is for

The laws of a call that transcodes from one code to another.  Its two counts say what it took and
what it wrote, so sources and destinations are no longer than a count can be.
-/

namespace SharpRuntime.Interface

open Machine Model

def output {β : Type} (r : Transcoding β) : List β := r.destination.take r.written.toNat

variable {α β : Type}

/-- The laws of a transcoder, where `skip` says how much ill-formed input is one U+FFFD and no
source needs a destination of more than `factor` times its length. -/
structure ObeysLaws (code : ScalarCode α) (skip : List α → ℕ) (target : ScalarCode β) (factor : ℕ)
    (call : List α → List β → Bool → Bool → Run Exception (Transcoding β)) : Prop where
  returns : ∀ s d replace final, ∃ r, call s d replace final = pure r
  /-- The call has written the transcoding of what it has taken, and nothing else. -/
  taken : ∀ s d replace final r, s.length ≤ intcsMax → d.length ≤ intcsMax →
    call s d replace final = pure r →
      (0 ≤ r.read ∧ r.read ≤ s.length) ∧ (0 ≤ r.written ∧ r.written ≤ d.length) ∧
      output r = target.encodeAll (code.replaced skip (s.take r.read.toNat)) ∧
      r.destination = output r ++ d.drop r.written.toNat ∧
      (replace = false → code.WellFormed (s.take r.read.toNat)) ∧
      (r.status = .done ↔ r.read = s.length)
  roomy : ∀ s d replace final r, factor * s.length ≤ d.length →
    call s d replace final = pure r → r.status ≠ .destinationTooSmall
  /-- Well-formed text is transcoded. -/
  wellFormed : ∀ cs d replace final r, (∀ c ∈ cs, Scalar c) → d.length ≤ intcsMax →
    call (code.encodeAll cs) d replace final = pure r → r.status ≠ .destinationTooSmall →
      r.status = .done ∧ output r = target.encodeAll cs
  /-- A source in two parts, when the destinations are large enough or have the same room. -/
  split : ∀ s t d₁ d₂ d replace final r₁ r₂ r, (s ++ t).length ≤ intcsMax →
    d₁.length ≤ intcsMax → d₂.length ≤ intcsMax → d.length ≤ intcsMax →
    call s d₁ replace false = pure r₁ →
    call (s.drop r₁.read.toNat ++ t) d₂ replace final = pure r₂ →
    call (s ++ t) d replace final = pure r →
    (r₂.status ≠ .destinationTooSmall ∧ r.status ≠ .destinationTooSmall ∨
      (d.length : ℤ) = r₁.written + d₂.length) →
      r.status = r₂.status ∧ r.read = r₁.read + r₂.read ∧ output r = output r₁ ++ output r₂

end SharpRuntime.Interface
