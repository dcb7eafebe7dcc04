import SharpRuntime.Machine.Transcoding
import SharpRuntime.Machine.Utf16
import SharpRuntime.Machine.Utf8

/-!
# Readers of UTF-8 and UTF-16

A reader of UTF-8 takes the bytes of an ill-formed sequence as far as they have the shape that its
first byte announces; a reader of UTF-16 takes one word.  Both wait where a sequence may go on.
-/

set_option autoImplicit false

namespace Machine

namespace Utf8

/-- The bytes after the first: `n` more are announced, `seen` are read, with the bits `acc`. -/
def scanTails (final : Bool) (minimum : ℕ) : (n seen acc : ℕ) → List UInt8 → Reading
  | 0, seen, acc, _ => if minimum ≤ acc ∧ Scalar acc then .scalar acc seen else .bad seen
  | _ + 1, seen, _, [] => if final then .bad seen else .more
  | n + 1, seen, acc, b :: s =>
    if IsTail b then scanTails final minimum n (seen + 1) (acc * 64 + b.toNat % 64) s
    else .bad seen

def scan (final : Bool) : List UInt8 → Reading
  | [] => .more
  | b :: s =>
    match lead? b with
    | none => .bad 1
    | some lead => scanTails final lead.minimum lead.tails 1 lead.payload s

section ScanTails

variable {final : Bool} {minimum n seen acc c m : ℕ} {s : List UInt8}

theorem scanTails_eq_scalar_iff :
    scanTails final minimum n seen acc s = .scalar c m ↔
      tails? n acc s = some c ∧ (minimum ≤ c ∧ Scalar c) ∧ m = n + seen := by
  induction n generalizing seen acc s with
  | zero =>
    rw [scanTails, tails?, Nat.zero_add, Option.some.injEq]
    split
    case isTrue h => grind
    case isFalse h => grind
  | succ n ih =>
    cases s with
    | nil =>
      rw [scanTails, tails?]
      refine iff_of_false ?_ fun h => by cases h.1
      split <;> exact fun h => by cases h
    | cons b s =>
      rw [scanTails, tails?]
      split
      case isTrue =>
        rw [ih, Nat.succ_add_eq_add_succ]
      case isFalse => exact iff_of_false (fun h => by cases h) fun h => by cases h.1

theorem length_of_scanTails_bad (h : scanTails final minimum n seen acc s = .bad m) :
    seen ≤ m ∧ m ≤ seen + s.length := by
  induction n generalizing seen acc s with
  | zero =>
    rw [scanTails] at h
    split at h
    · cases h
    · cases h
      omega
  | succ n ih =>
    cases s with
    | nil => grind [scanTails]
    | cons b s => grind [scanTails]

theorem scanTails_ne_more : scanTails true minimum n seen acc s ≠ .more := by
  induction n generalizing seen acc s with
  | zero =>
    rw [scanTails]
    split <;> nofun
  | succ n ih =>
    cases s with
    | nil => nofun
    | cons b s =>
      rw [scanTails]
      split
      · exact ih
      · nofun

theorem scanTails_append (h : scanTails false minimum n seen acc s = .bad m) (final : Bool)
    (t : List UInt8) : scanTails final minimum n seen acc (s ++ t) = .bad m := by
  induction n generalizing seen acc s with
  | zero => exact h
  | succ n ih =>
    cases s with
    | nil => cases h
    | cons b s => grind [scanTails]

theorem scanTails_take (h : scanTails final minimum n seen acc s = .bad m) {k : ℕ}
    (hk : m ≤ seen + k) : scanTails true minimum n seen acc (s.take k) = .bad m := by
  induction n generalizing seen acc s k with
  | zero => exact h
  | succ n ih =>
    cases s with
    | nil => grind [scanTails]
    | cons b s =>
      rw [scanTails] at h
      cases k with
      | zero =>
        split at h
        · obtain ⟨hlow, -⟩ := length_of_scanTails_bad h
          omega
        · exact h
      | succ k => grind [scanTails]

end ScanTails

def reader : Reader utf8 where
  read := scan
  read_scalar_iff := by
    intro final s c n
    cases s with
    | nil => exact iff_of_false nofun nofun
    | cons b s =>
      rw [scan, read?_cons]
      cases lead? b with
      | none => exact iff_of_false nofun nofun
      | some lead =>
        dsimp only
        rw [scanTails_eq_scalar_iff, Option.bind_some]
        cases tails? lead.tails lead.payload s with
        | none => exact iff_of_false (fun h => by cases h.1) nofun
        | some d =>
          rw [Option.bind_some, Option.some.injEq]
          constructor
          · rintro ⟨rfl, hgood, rfl⟩
            rw [if_pos hgood]
          · intro h
            split at h
            case isTrue hgood =>
              obtain ⟨rfl, rfl⟩ := Prod.mk.inj (Option.some.inj h)
              exact ⟨rfl, hgood, rfl⟩
            case isFalse => cases h
  bad_length := by
    intro final s n hne h
    obtain ⟨b, s, rfl⟩ := List.exists_cons_of_ne_nil hne
    rw [scan] at h
    rw [List.length_cons]
    split at h
    · cases h
      omega
    · obtain ⟨hlow, hhigh⟩ := length_of_scanTails_bad h
      omega
  not_more := by
    intro s hne
    obtain ⟨b, s, rfl⟩ := List.exists_cons_of_ne_nil hne
    rw [scan]
    split
    · nofun
    · exact scanTails_ne_more
  bad_append := by
    intro s n hne h final t
    obtain ⟨b, s, rfl⟩ := List.exists_cons_of_ne_nil hne
    rw [scan] at h
    rw [List.cons_append, scan]
    cases hlead : lead? b with
    | none =>
      rw [hlead] at h
      exact h
    | some lead =>
      rw [hlead] at h
      exact scanTails_append h final t
  bad_take := by
    intro final s n hne h k hk
    obtain ⟨b, s, rfl⟩ := List.exists_cons_of_ne_nil hne
    rw [scan] at h
    cases hlead : lead? b with
    | none =>
      rw [hlead] at h
      cases h
      obtain ⟨j, rfl⟩ := Nat.exists_eq_add_of_le' hk
      rw [List.take_succ_cons, scan, hlead]
    | some lead =>
      rw [hlead] at h
      obtain ⟨hlow, -⟩ := length_of_scanTails_bad h
      obtain ⟨j, rfl⟩ := Nat.exists_eq_add_of_le' (hlow.trans hk)
      rw [List.take_succ_cons, scan, hlead]
      exact scanTails_take h (by omega)

end Utf8

namespace Utf16

def scan (final : Bool) : List UInt16 → Reading
  | [] => .more
  | u :: s =>
    if IsHigh u then
      match s with
      | [] => if final then .bad 1 else .more
      | v :: _ => if IsLow v then .scalar (pair u v) 2 else .bad 1
    else if IsLow u then .bad 1
    else .scalar u.toNat 1

theorem scan_cons (final : Bool) (u : UInt16) (s : List UInt16) :
    scan final (u :: s) =
      if IsHigh u then
        match s with
        | [] => if final then .bad 1 else .more
        | v :: _ => if IsLow v then .scalar (pair u v) 2 else .bad 1
      else if IsLow u then .bad 1
      else .scalar u.toNat 1 := rfl

theorem of_scan_bad {final : Bool} {u : UInt16} {s : List UInt16} {n : ℕ}
    (h : scan final (u :: s) = .bad n) :
    n = 1 ∧ (∀ k, scan true (u :: s.take k) = .bad 1) ∧
      (final = false → ∀ final' t, scan final' (u :: (s ++ t)) = .bad 1) := by
  rw [scan_cons] at h
  simp only [scan_cons]
  by_cases hhigh : IsHigh u
  · simp only [if_pos hhigh] at h ⊢
    cases s with
    | nil => grind
    | cons v s =>
      dsimp only at h
      split at h
      case isTrue => cases h
      case isFalse hlow =>
        cases h
        refine ⟨rfl, fun k => ?_, fun _ final' t => ?_⟩
        · cases k with
          | zero => rfl
          | succ k =>
            exact if_neg hlow
        · exact if_neg hlow
  · grind

def reader : Reader utf16 where
  read := scan
  read_scalar_iff := by
    intro final s c n
    cases s with
    | nil => exact iff_of_false nofun nofun
    | cons u s =>
      rw [scan_cons, read?_cons]
      split
      case isTrue =>
        cases s with
        | nil =>
          refine iff_of_false ?_ nofun
          dsimp only
          split <;> nofun
        | cons v s =>
          rw [List.head?_cons, Option.bind_some]
          dsimp only
          split
          · rw [Reading.scalar.injEq, Option.some.injEq, Prod.mk.injEq]
          · exact iff_of_false nofun nofun
      case isFalse =>
        split
        · exact iff_of_false nofun nofun
        · rw [Reading.scalar.injEq, Option.some.injEq, Prod.mk.injEq]
  bad_length := by
    intro final s n hne h
    obtain ⟨u, s, rfl⟩ := List.exists_cons_of_ne_nil hne
    obtain ⟨rfl, -, -⟩ := of_scan_bad h
    exact ⟨Nat.one_pos, Nat.succ_pos _⟩
  not_more := by
    intro s hne
    obtain ⟨u, s, rfl⟩ := List.exists_cons_of_ne_nil hne
    rw [scan_cons]
    split
    · split
      · nofun
      · split <;> nofun
    · split <;> nofun
  bad_append := by
    intro s n hne h final t
    obtain ⟨u, s, rfl⟩ := List.exists_cons_of_ne_nil hne
    obtain ⟨rfl, -, happend⟩ := of_scan_bad h
    exact happend rfl final t
  bad_take := by
    intro final s n hne h k hk
    obtain ⟨u, s, rfl⟩ := List.exists_cons_of_ne_nil hne
    obtain ⟨rfl, htake, -⟩ := of_scan_bad h
    obtain ⟨j, rfl⟩ := Nat.exists_eq_add_of_le' hk
    rw [List.take_succ_cons]
    exact htake j

end Utf16

end Machine
