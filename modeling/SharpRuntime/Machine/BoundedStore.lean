import Mathlib

/-!
# Stores under bounds

Items in the order they were stored in, each with a key of its own, at most `total` of them and at
most `perGroup` of any one group.  To forget items keeps the bounds, to put an item in the place of
one with the same key and group keeps them, and to store one more asks for room.
-/

set_option autoImplicit false

namespace Machine

variable {α κ γ : Type} [DecidableEq γ]

/-- Items with distinct keys, under a bound on all and a bound on each group. -/
structure Bounded (key : α → κ) (group : α → γ) (total perGroup : ℤ) (items : List α) : Prop where
  distinct : (items.map key).Nodup
  length_le : (items.length : ℤ) ≤ total
  group_le : ∀ g, (items.countP (fun a => group a = g) : ℤ) ≤ perGroup

namespace Bounded

variable {key : α → κ} {group : α → γ} {total perGroup : ℤ} {items kept : List α}

theorem sublist (h : Bounded key group total perGroup items) (hkept : kept.Sublist items) :
    Bounded key group total perGroup kept where
  distinct := (hkept.map key).nodup h.distinct
  length_le := Int.le_trans (Int.ofNat_le.mpr hkept.length_le) h.length_le
  group_le g := Int.le_trans (Int.ofNat_le.mpr hkept.countP_le) (h.group_le g)

theorem withBounds {total' perGroup' : ℤ} (h : Bounded key group total perGroup items)
    (hlength : (items.length : ℤ) ≤ total')
    (hgroup : ∀ a ∈ items, (items.countP (fun b => group b = group a) : ℤ) ≤ perGroup')
    (hnonneg : 0 ≤ perGroup') : Bounded key group total' perGroup' items where
  distinct := h.distinct
  length_le := hlength
  group_le g := by
    by_cases hg : ∃ a ∈ items, group a = g
    · obtain ⟨a, ha, rfl⟩ := hg
      exact hgroup a ha
    · have hnone : items.countP (fun a => group a = g) = 0 :=
        List.countP_eq_zero.mpr fun a ha => by simpa using fun hag => hg ⟨a, ha, hag⟩
      rw [hnone]
      exact hnonneg

theorem replace {before after : List α} {a b : α}
    (h : Bounded key group total perGroup (before ++ a :: after)) (hkey : key b = key a)
    (hgroup : group b = group a) : Bounded key group total perGroup (before ++ b :: after) where
  distinct := by grind [h.distinct]
  length_le := by simpa using h.length_le
  group_le g := by
    have hcount : (before ++ b :: after).countP (fun a => group a = g) =
        (before ++ a :: after).countP (fun a => group a = g) := by
      simp [List.countP_append, List.countP_cons, hgroup]
    rw [hcount]
    exact h.group_le g

theorem append {a : α} (h : Bounded key group total perGroup items)
    (hkey : ∀ b ∈ items, key b ≠ key a) (hlength : (items.length : ℤ) < total)
    (hgroup : (items.countP (fun b => group b = group a) : ℤ) < perGroup) :
    Bounded key group total perGroup (items ++ [a]) where
  distinct := by
    rw [List.map_append, List.map_singleton, List.nodup_append]
    refine ⟨h.distinct, List.nodup_singleton _, ?_⟩
    rintro k hk k' hk' rfl
    obtain ⟨b, hb, rfl⟩ := List.mem_map.mp hk
    exact hkey b hb (List.mem_singleton.mp hk')
  length_le := by
    rw [List.length_append, List.length_singleton]
    omega
  group_le g := by
    rw [List.countP_append, List.countP_singleton]
    have hg := h.group_le g
    split
    · grind
    · omega

end Bounded

end Machine
