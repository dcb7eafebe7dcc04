import Mathlib

/-!
# Ordered forests

Nodes that have ordered lists of children, kept twice as a program keeps them: a list for each
place, and for each node the place it stands at.  A place is below a node, or aside, where nodes go
that are taken out of the trees; a node may also stand nowhere.  A forest is consistent if the two
agree and no node is above itself; moving a node keeps it so, if the node does not move below itself
or below a node it is above (`Consistent.move`).
-/

set_option autoImplicit false

namespace Machine

open Relation.TransGen

variable {ι : Type}

/-- Where a node may stand. -/
inductive Place (ι : Type) where
  | aside
  | below (p : ι)
deriving DecidableEq

/-- The place of every node, and the nodes of every place in their order. -/
structure Forest (ι : Type) where
  parent : ι → Option (Place ι)
  children : Place ι → List ι

namespace Forest

def IsParent (f : Forest ι) (p n : ι) : Prop := f.parent n = some (.below p)

def IsAbove (f : Forest ι) : ι → ι → Prop := Relation.ReflTransGen f.IsParent

/-- The places agree with the lists, and no node is above itself. -/
structure Consistent (f : Forest ι) : Prop where
  mem_children : ∀ n q, n ∈ f.children q ↔ f.parent n = some q
  nodup : ∀ q, (f.children q).Nodup
  acyclic : ∀ n, ¬ Relation.TransGen f.IsParent n n

section Move

variable [DecidableEq ι]

/-- A node is taken out of the place it stands at and put into the list of a place. -/
def move (f : Forest ι) (n : ι) (q : Place ι) (put : List ι → List ι) : Forest ι where
  parent := Function.update f.parent n (some q)
  children r := if r = q then put ((f.children r).erase n) else (f.children r).erase n

def putAfter (a n : ι) : List ι → List ι
  | [] => [n]
  | b :: bs => if b = a then b :: n :: bs else b :: putAfter a n bs

def previousIn (n : ι) : List ι → Option ι
  | a :: b :: bs => if b = n then some a else previousIn n (b :: bs)
  | _ => none

def nextIn (n : ι) : List ι → Option ι
  | a :: b :: bs => if a = n then some b else nextIn n (b :: bs)
  | _ => none

end Move

variable {f : Forest ι} {a n p : ι}

theorem IsAbove.refl (f : Forest ι) (n : ι) : f.IsAbove n n :=
  Relation.ReflTransGen.refl

theorem isAbove_iff : f.IsAbove a n ↔ a = n ∨ ∃ p, f.IsParent p n ∧ f.IsAbove a p := by
  rw [IsAbove, Relation.ReflTransGen.cases_tail_iff]
  refine or_congr eq_comm (exists_congr fun p => and_comm)

theorem isAbove_of_parent (hparent : f.parent n = some (.below p)) :
    f.IsAbove a n ↔ a = n ∨ f.IsAbove a p := by
  rw [isAbove_iff]
  refine or_congr Iff.rfl ⟨?_, fun h => ⟨p, hparent, h⟩⟩
  rintro ⟨q, hq, habove⟩
  obtain rfl : q = p := Place.below.inj (Option.some.inj (hq.symm.trans hparent))
  exact habove

theorem IsAbove.of_child (hparent : f.parent n = some (.below p)) {b : ι}
    (habove : f.IsAbove n b) : f.IsAbove p b :=
  (Relation.ReflTransGen.single (show f.IsParent p n from hparent)).trans habove

theorem isAbove_of_root (hroot : ∀ p, f.parent n ≠ some (.below p)) : f.IsAbove a n ↔ a = n := by
  rw [isAbove_iff]
  refine or_iff_left ?_
  rintro ⟨p, hp, -⟩
  exact hroot p hp

theorem isAbove_of_parent_eq_none (hnowhere : f.parent n = none) : f.IsAbove a n ↔ a = n := by
  refine isAbove_of_root fun p hp => ?_
  rw [hnowhere] at hp
  cases hp

theorem Consistent.not_isAbove_parent (hf : f.Consistent) (hparent : f.IsParent p n) :
    ¬ f.IsAbove n p := fun habove =>
  hf.acyclic n (tail' habove hparent)

def scattered : Forest ι where
  parent _ := none
  children _ := []

theorem not_isParent_scattered : ¬ (scattered : Forest ι).IsParent p n :=
  fun h => nomatch h

theorem consistent_scattered : (scattered : Forest ι).Consistent := by
  refine ⟨fun n q => iff_of_false List.not_mem_nil fun h => (nomatch h), fun q => List.nodup_nil,
    fun n hcycle => ?_⟩
  obtain ⟨b, -, hparent⟩ := tail'_iff.mp hcycle
  exact not_isParent_scattered hparent

section Moved

variable [DecidableEq ι] {q r : Place ι} {put : List ι → List ι}

@[simp] theorem parent_move_self : (f.move n q put).parent n = some q :=
  Function.update_self ..

theorem parent_move_of_ne (hne : a ≠ n) : (f.move n q put).parent a = f.parent a :=
  Function.update_of_ne hne ..

@[simp] theorem children_move_self :
    (f.move n q put).children q = put ((f.children q).erase n) :=
  if_pos rfl

theorem children_move_of_ne (hne : r ≠ q) :
    (f.move n q put).children r = (f.children r).erase n :=
  if_neg hne

theorem children_move_aside :
    (f.move n .aside put).children (.below p) = (f.children (.below p)).erase n :=
  children_move_of_ne fun h => nomatch h

theorem isParent_move (hparent : (f.move n q put).IsParent p a) :
    (a = n ∧ q = .below p) ∨ (a ≠ n ∧ f.IsParent p a) := by
  grind [IsParent, parent_move_self, parent_move_of_ne]

theorem isAbove_move {b : ι} (habove : (f.move n q put).IsAbove a b) :
    f.IsAbove a b ∨ ∃ p, q = .below p ∧ f.IsAbove a p ∧ f.IsAbove n b := by
  induction habove with
  | refl => exact Or.inl (IsAbove.refl f a)
  | tail _ hparent ih =>
    obtain ⟨rfl, hq⟩ | ⟨-, hparent⟩ := isParent_move hparent
    · obtain hab | ⟨p, hp, hap, -⟩ := ih
      · exact Or.inr ⟨_, hq, hab, IsAbove.refl f _⟩
      · exact Or.inr ⟨p, hp, hap, IsAbove.refl f _⟩
    · obtain hab | ⟨p, hp, hap, hnb⟩ := ih
      · exact Or.inl (hab.tail hparent)
      · exact Or.inr ⟨p, hp, hap, hnb.tail hparent⟩

theorem isAbove_move_iff {b : ι} (hnb : ¬ f.IsAbove n b) :
    (f.move n q put).IsAbove a b ↔ f.IsAbove a b := by
  refine ⟨fun habove => ?_, fun habove => ?_⟩
  · obtain hab | ⟨p, -, -, hnb'⟩ := isAbove_move habove
    · exact hab
    · exact absurd hnb' hnb
  · induction habove with
    | refl => exact IsAbove.refl _ a
    | @tail b c hab hparent ih =>
      have hc : c ≠ n := by
        rintro rfl
        exact hnb (IsAbove.refl f _)
      refine (ih fun hnb' => hnb (hnb'.tail hparent)).tail ?_
      rw [IsParent, parent_move_of_ne hc]
      exact hparent

/-- A move keeps a forest consistent when the node does not go below itself. -/
theorem Consistent.move (hf : f.Consistent) (hput : ∀ xs, (put xs).Perm (n :: xs))
    (hq : ∀ p, q = .below p → ¬ f.IsAbove n p) : (f.move n q put).Consistent := by
  refine ⟨fun a r => ?_, fun r => ?_, fun a hcycle => ?_⟩
  · have herased : a ∈ (f.children r).erase n ↔ a ≠ n ∧ f.parent a = some r := by
      rw [(hf.nodup r).mem_erase_iff, hf.mem_children]
    by_cases ha : a = n
    · subst ha
      rw [parent_move_self, Option.some_inj]
      by_cases hr : r = q
      · grind [children_move_self]
      · rw [children_move_of_ne hr, herased]
        exact iff_of_false (fun h => h.1 rfl) (Ne.symm hr)
    · rw [parent_move_of_ne ha]
      by_cases hr : r = q
      · grind [children_move_self]
      · rw [children_move_of_ne hr, herased, and_iff_right ha]
  · by_cases hr : r = q
    · subst hr
      rw [children_move_self, (hput _).nodup_iff, List.nodup_cons]
      exact ⟨(hf.nodup r).not_mem_erase, (hf.nodup r).erase n⟩
    · rw [children_move_of_ne hr]
      exact (hf.nodup r).erase n
  · -- The last step of a cycle is new only if it leads to the node moved.
    obtain ⟨b, hab, hparent⟩ := tail'_iff.mp hcycle
    obtain ⟨rfl, hqb⟩ | ⟨-, hparent⟩ := isParent_move hparent
    · obtain habove | ⟨p, hp, habove, -⟩ := isAbove_move hab
      · exact hq b hqb habove
      · exact hq p hp habove
    · obtain habove | ⟨p, hp, hap, hnb⟩ := isAbove_move hab
      · exact hf.acyclic a (tail' habove hparent)
      · exact hq p hp ((hnb.tail hparent).trans hap)

theorem perm_putAfter (a n : ι) (xs : List ι) : (putAfter a n xs).Perm (n :: xs) := by
  induction xs with
  | nil => exact List.Perm.refl _
  | cons b bs ih => grind [putAfter]

end Moved

variable {f' : Forest ι}

theorem IsAbove.mono (h : ∀ p n, f'.IsParent p n → f.IsParent p n) (habove : f'.IsAbove a n) :
    f.IsAbove a n :=
  Relation.ReflTransGen.mono h a n habove

theorem Consistent.of_perm (hf : f.Consistent) (hparent : f'.parent = f.parent)
    (hperm : ∀ q, (f'.children q).Perm (f.children q)) : f'.Consistent := by
  refine ⟨fun n q => ?_, fun q => (hperm q).nodup_iff.mpr (hf.nodup q), fun n hcycle => ?_⟩
  · rw [(hperm q).mem_iff, hf.mem_children, hparent]
  · refine hf.acyclic n (mono (fun p c hpc => ?_) n n hcycle)
    rwa [IsParent, ← hparent]

theorem Consistent.prune (hf : f.Consistent) (S : ι → Prop) [DecidablePred S]
    (hparent : ∀ n, f'.parent n = if S n then none else f.parent n)
    (hchildren : ∀ q, (f'.children q).Perm ((f.children q).filter fun n => ¬S n)) :
    f'.Consistent := by
  refine ⟨fun n q => ?_, fun q => (hchildren q).nodup_iff.mpr ((hf.nodup q).filter _),
    fun n hcycle => hf.acyclic n (mono (fun p c hpc => ?_) n n hcycle)⟩
  · grind [hf.mem_children]
  · grind [IsParent]

theorem Consistent.attach [DecidableEq ι] (hf : f.Consistent) (hnowhere : f.parent n = none)
    (hnot : ¬f.IsAbove n p) (hparent : f'.parent = Function.update f.parent n (some (.below p)))
    (hself : (f'.children (.below p)).Perm (n :: f.children (.below p)))
    (hother : ∀ q, q ≠ .below p → f'.children q = f.children q) : f'.Consistent := by
  have herase : ∀ q, (f.children q).erase n = f.children q := fun q => by
    refine List.erase_of_not_mem fun hmem => ?_
    have hstands := (hf.mem_children n q).mp hmem
    rw [hnowhere] at hstands
    cases hstands
  have hmoved : (f.move n (.below p) (n :: ·)).Consistent := by grind [hf.move]
  refine hmoved.of_perm hparent fun q => ?_
  by_cases hq : q = .below p
  · subst hq
    rw [children_move_self, herase]
    exact hself
  · rw [children_move_of_ne hq, herase, hother q hq]

theorem Consistent.ncard_above_lt_of_finite (hf : f.Consistent) (hparent : f.IsParent p n)
    (hfinite : {a | f.IsAbove a n}.Finite) :
    {a | f.IsAbove a p}.ncard < {a | f.IsAbove a n}.ncard := by
  have hsubset : {a | f.IsAbove a p} ⊆ {a | f.IsAbove a n} := fun a ha =>
    (isAbove_of_parent hparent).mpr (Or.inr ha)
  refine Set.ncard_lt_ncard ((Set.ssubset_iff_of_subset hsubset).mpr ?_) hfinite
  exact ⟨n, IsAbove.refl f n, hf.not_isAbove_parent hparent⟩

theorem Consistent.ncard_above_lt [Finite ι] (hf : f.Consistent) (hparent : f.IsParent p n) :
    {a | f.IsAbove a p}.ncard < {a | f.IsAbove a n}.ncard :=
  hf.ncard_above_lt_of_finite hparent (Set.toFinite _)

end Forest

end Machine
