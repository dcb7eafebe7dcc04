import SharpRuntime.Model.IdnMapping

/-!
# Domain names

A name is labels with a separator between them; it may end with one.  A conversion of names is a
conversion of its labels, one by one, with a dot for every separator (`Relabelled`).
-/

set_option autoImplicit false

namespace SharpRuntime.Interface

open Model

/-- The name `name` converted to `text` label by label, where the relation `rel` holds between
every label and what it is converted to. -/
inductive Relabelled {α : Type} (isSeparator : α → Bool) (rel : List α → List UInt8 → Prop) :
    (name : List α) → (text : List UInt8) → Prop where
  | nil : Relabelled isSeparator rel [] []
  | last {label : List α} {r : List UInt8} (hne : label ≠ [])
      (hlabel : ∀ c ∈ label, isSeparator c = false) (h : rel label r) :
      Relabelled isSeparator rel label r
  | cons {label rest : List α} {c : α} {r rs : List UInt8} (hne : label ≠ [])
      (hlabel : ∀ c ∈ label, isSeparator c = false) (hc : isSeparator c = true) (h : rel label r)
      (hrest : Relabelled isSeparator rel rest rs) :
      Relabelled isSeparator rel (label ++ c :: rest) (r ++ 0x2E :: rs)

theorem Relabelled.mono {α : Type} {isSeparator : α → Bool} {rel rel' : List α → List UInt8 → Prop}
    {name : List α} {text : List UInt8} (h : Relabelled isSeparator rel name text)
    (hrel : ∀ label r, label ≠ [] → (∀ c ∈ label, c ∈ name) → (∀ c ∈ label, isSeparator c = false) →
      rel label r → rel' label r) :
    Relabelled isSeparator rel' name text := by
  induction h with
  | nil => exact Relabelled.nil
  | last hne hlabel h =>
    exact Relabelled.last hne hlabel (hrel _ _ hne (fun _ hc => hc) hlabel h)
  | @cons label rest c r rs hne hlabel hc h _ ih => grind [Relabelled.cons]

def labels (name : List ℕ) : List (List ℕ) := name.splitOnP IdnMapping.isSeparator

def BeginsWithAce (label : List ℕ) : Prop :=
  (label.take 4).map IdnMapping.asciiLower = [0x78, 0x6E, 0x2D, 0x2D]

instance : DecidablePred BeginsWithAce :=
  fun _ => inferInstanceAs (Decidable (_ = [0x78, 0x6E, 0x2D, 0x2D]))

/-- A code point of a name with the case of the letters and the kind of the dots lost. -/
def normalized (c : ℕ) : ℕ := if IdnMapping.isSeparator c then 0x2E else IdnMapping.asciiLower c

end SharpRuntime.Interface
