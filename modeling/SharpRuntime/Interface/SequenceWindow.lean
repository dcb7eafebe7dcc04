import SharpRuntime.Model.ReadOnlySequence

/-!
# Sequences as windows

What a read-only sequence is for: a window on a list of elements, which every way of reading the
sequence shows, and which a slice narrows.
-/

set_option autoImplicit false

namespace SharpRuntime.Interface

open Machine Model Model.ReadOnlySequence

variable {α : Type}

/-- The elements from `first` up to `last`. -/
@[ext]
structure Window where
  first : ℤ
  last : ℤ
deriving DecidableEq

namespace Window

def elements (w : Window) (data : List α) : List α :=
  (data.drop w.first.toNat).take (w.last - w.first).toNat

def Contains (w inner : Window) : Prop :=
  w.first ≤ inner.first ∧ inner.first ≤ inner.last ∧ inner.last ≤ w.last

instance (w inner : Window) : Decidable (w.Contains inner) :=
  inferInstanceAs (Decidable (_ ∧ _))

theorem contains_mk {w : Window} {first last : ℤ} :
    w.Contains ⟨first, last⟩ ↔ w.first ≤ first ∧ first ≤ last ∧ last ≤ w.last := Iff.rfl

/-- The window a call of `slice` asks for: offsets count from the start of `w`, positions are
absolute. -/
def slice (w : Window) : Call → Window
  | .positions start end_ => ⟨start.getInteger.toInt, end_.getInteger.toInt⟩
  | .fromPosition start => ⟨start.getInteger.toInt, w.last⟩
  | .range start length => ⟨w.first + start.toInt, w.first + start.toInt + length.toInt⟩
  | .fromOffset start => ⟨w.first + start.toInt, w.last⟩
  | .upTo start end_ => ⟨w.first + start.toInt, end_.getInteger.toInt⟩
  | .rangeFrom start length => ⟨start.getInteger.toInt, start.getInteger.toInt + length.toInt⟩

/-- The window after a chain of slices, if each of them stays inside the one before. -/
def sliceAll (w : Window) : List Call → Option Window
  | [] => some w
  | call :: calls => if w.Contains (w.slice call) then (w.slice call).sliceAll calls else none

end Window

/-- Every way of reading `q` gives `content`: the loops over the enumerator and over `tryGet`,
`first`, `toArray` and `copyTo`, which needs the room. -/
structure Shows (q : ReadOnlySequence α) (content : List α) : Prop where
  enumerated : ∃ fuel found, q.segments fuel getEnumerator = pure found ∧ found.flatten = content
  fragments : ∃ fuel found,
    q.fragments fuel q.getStartProperty = pure found ∧ found.flatten = content
  first : q.first = pure content
  toArray : q.toArray = pure content
  copyTo : ∀ destination : List α, q.copyTo destination =
    if destination.length < content.length then Run.throwing (.outOfRange "destination")
    else pure (content ++ destination.drop content.length)

/-- A chain of slices of `q` that stays inside the window on its buffer gives a sequence that shows
the elements of the last window; one that leaves it throws. -/
def SlicesAgree (q : ReadOnlySequence α) (calls : List Call) : Prop :=
  match (⟨q.start.toInt, q.end_.toInt⟩ : Window).sliceAll calls with
  | some w => ∃ result, q.sliceAll calls = pure result ∧ Shows result (w.elements q.data)
  | none => ∃ paramName, q.sliceAll calls = Run.throwing (.outOfRange paramName)

end SharpRuntime.Interface
