import SharpRuntime.Analysis.Utf8Transcoding
import SharpRuntime.Machine.MaximalSubparts

/-!
# Replacement in `Utf8::ToUtf16`

The replacement that the comment of `toUtf16` names puts U+FFFD for each maximal subpart.  The loop
takes a continuation byte that its lead byte does not permit, for instance the second byte of an
overlong form or of a surrogate, into the subpart.  So it replaces as the standard says exactly when
no such byte stands in the source, and else writes less.
-/

set_option autoImplicit false

namespace SharpRuntime.Analysis.Utf8Replacement

open Machine Machine.Utf8 Model Model.Utf8Transcoder Analysis.Utf8Transcoding

def written (source : List UInt8) (destination : List UInt16) (cs : List ℕ) :
    Transcoding UInt16 :=
  ⟨.done, utf16.encodeAll cs ++ destination.drop (utf16.encodeAll cs).length,
    toIntcs source.length, toIntcs (utf16.encodeAll cs).length⟩

/-- A call with a destination that is large enough writes the scalars of the source, one U+FFFD for
each maximal subpart. -/
def ReplacesSubparts (source : List UInt8) : Prop :=
  ∃ cs, Substituted source cs ∧ ∀ destination : List UInt16,
    (utf16.encodeAll cs).length ≤ destination.length →
      toUtf16 source destination true true = pure (written source destination cs)

variable {source : List UInt8}

theorem toUtf16_replaced {destination : List UInt16}
    (hroom : (utf16.encodeAll (utf8.replaced Utf8.reader.skip source)).length ≤
      destination.length) :
    toUtf16 source destination true true =
      pure (written source destination (utf8.replaced Utf8.reader.skip source)) := by
  -- the run in a room that is certainly enough
  obtain ⟨halt, taken, out, hlarge⟩ :=
    Transcodes.exists_run Utf8.reader utf16 true true (1 * source.length) source
  have hfull : halt ≠ .full := hlarge.not_full length_encode16_le (by decide) le_rfl
  have hdone : halt = .done := by
    obtain ⟨-, hstarved, hmalformed⟩ := hlarge.of_halt
    cases halt with
    | done => rfl
    | full => exact absurd rfl hfull
    | starved => cases hstarved rfl
    | malformed => cases hmalformed rfl
  have htaken : taken = source.length := hlarge.of_halt.1.mp hdone
  have hout := hlarge.written_eq
  rw [htaken, List.take_length] at hout
  obtain ⟨halt', taken', out', hrun, hreturns⟩ := toUtf16_eq source destination true true
  obtain ⟨rfl, rfl, rfl⟩ := hrun.unique (hlarge.of_room hfull (hout ▸ hroom))
  rw [hreturns, hdone, htaken, hout]
  rfl

theorem replacesSubparts_of_isChain (h : source.IsChain Permits) : ReplacesSubparts source := by
  obtain ⟨cs, hcs, ⟨-, rfl⟩ | ⟨hnot, -⟩⟩ := exists_substituted source
  · exact ⟨_, hcs, fun destination hroom => toUtf16_replaced hroom⟩
  · exact absurd h hnot

theorem not_replacesSubparts_of_not_isChain
    (h : ¬ source.IsChain Permits) : ¬ ReplacesSubparts source := by
  rintro ⟨cs, hcs, hwrites⟩
  obtain ⟨ds, hds, ⟨hchain, -⟩ | ⟨-, hless⟩⟩ := exists_substituted source
  · exact h hchain
  obtain rfl := hcs.unique hds
  have hshort := hless UInt16 utf16
  obtain ⟨out, hout⟩ : ∃ out, utf16.encodeAll cs = out := ⟨_, rfl⟩
  obtain ⟨less, hlesser⟩ :
      ∃ less, utf16.encodeAll (utf8.replaced Utf8.reader.skip source) = less := ⟨_, rfl⟩
  rw [hout, hlesser] at hshort
  -- a destination full of a unit other than the one that should come next
  obtain ⟨other, hother⟩ : ∃ other, other ≠ out[less.length] := by
    by_cases hzero : out[less.length] = 0
    · exact ⟨1, by rw [hzero]; decide⟩
    · exact ⟨0, Ne.symm hzero⟩
  have hdestination := hwrites (List.replicate out.length other)
    (by rw [hout, List.length_replicate])
  rw [toUtf16_replaced (by rw [hlesser, List.length_replicate]; exact hshort.le),
    Run.pure_inj] at hdestination
  have hunits := congrArg Transcoding.destination hdestination
  rw [written, written, hout, hlesser] at hunits
  have hunit := congrArg (fun us => us[less.length]?) hunits
  rw [List.getElem?_append_right le_rfl, Nat.sub_self, List.drop_replicate,
    List.getElem?_replicate, if_pos (by omega), List.getElem?_append_left hshort,
    List.getElem?_eq_getElem hshort, Option.some.injEq] at hunit
  exact hother hunit

/-- **Replacement by maximal subparts.**  Ill-formed input is replaced as the standard says exactly
when every continuation byte that comes right after a lead byte is one that may follow it. -/
theorem replacesSubparts_iff (source : List UInt8) :
    ReplacesSubparts source ↔ source.IsChain Permits :=
  ⟨fun h => by_contra fun hnot => not_replacesSubparts_of_not_isChain hnot h,
    replacesSubparts_of_isChain⟩

/-- The three bytes of a surrogate are three subparts. -/
theorem surrogate_swallowed : ¬ ReplacesSubparts [0xED, 0xA0, 0x80] := by
  apply not_replacesSubparts_of_not_isChain
  rw [List.isChain_cons_cons]
  rintro ⟨hfollows, -⟩
  obtain ⟨rest, hrest⟩ := hfollows (by decide) (by decide) (by decide)
  rw [List.cons_append, List.singleton_append] at hrest
  have hnot : ¬ (0xA0 : UInt8).toNat ≤ 0x9F := by decide
  cases hrest with
  | two ha => exact absurd ha.2 (by decide)
  | threeLow ha => exact absurd ha.2 (by decide)
  | three ha => exact absurd ha.2 (by decide)
  | threeSurrogate ha hb => exact hnot hb.2
  | threeHigh ha => exact absurd ha.1 (by decide)
  | fourLow ha => exact absurd ha.1 (by decide)
  | four ha => exact absurd ha.1 (by decide)
  | fourHigh ha => exact absurd ha.1 (by decide)

end SharpRuntime.Analysis.Utf8Replacement
