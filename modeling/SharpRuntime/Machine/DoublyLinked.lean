import Mathlib

/-!
# Doubly linked cells

Cells with a link forward and a link back.  `Visits` says which cells a walk along one kind of link
comes to; `Linked` says that the cells of a list are linked in its order, both ways, between a cell
before and a cell behind.  A list linked between no cells is walked from either end
(`Linked.visits`, `Linked.visits_reverse`); a cell is put in or taken out by the links at the cut
(`Linked.insert`, `Linked.remove`).
-/

set_option autoImplicit false

namespace Machine

variable {ν : Type}

/-- The cells of a walk that starts at a cell, or at none, and goes along the links. -/
def Visits (link : ν → Option ν) : Option ν → List ν → Prop
  | start, [] => start = none
  | start, n :: rest => start = some n ∧ Visits link (link n) rest

/-- The cells are linked in their order, the first one back to `before`, the last one forward to
`after`. -/
def Linked (next prev : ν → Option ν) : (before : Option ν) → List ν → (after : Option ν) → Prop
  | _, [], _ => True
  | before, n :: rest, after =>
    prev n = before ∧ next n = rest.head?.or after ∧ Linked next prev (some n) rest after

variable {link : ν → Option ν} {start : Option ν} {xs : List ν}

theorem Visits.unique {ys : List ν}
    (hxs : Visits link start xs) (hys : Visits link start ys) : xs = ys := by
  induction xs generalizing start ys with
  | nil =>
    obtain rfl : start = none := hxs
    cases ys with
    | nil => rfl
    | cons y ys => cases hys.1
  | cons x xs ih =>
    obtain ⟨rfl, hrest⟩ := hxs
    cases ys with
    | nil => cases hys
    | cons y ys =>
      obtain ⟨hstart, hys⟩ := hys
      obtain rfl := Option.some.inj hstart
      rw [ih hrest hys]

theorem Visits.agree {link' : ν → Option ν} {start' : Option ν}
    (h : Visits link start xs) (h' : Visits link' start' xs) :
    start = start' ∧ ∀ n ∈ xs, link n = link' n := by
  induction xs generalizing start start' with
  | nil => exact ⟨h.trans h'.symm, nofun⟩
  | cons x xs ih =>
    obtain ⟨hx, hrest⟩ := ih h.2 h'.2
    refine ⟨h.1.trans h'.1.symm, fun n hn => ?_⟩
    rcases List.mem_cons.mp hn with rfl | hn
    · exact hx
    · exact hrest n hn

namespace Linked

variable {next prev next' prev' : ν → Option ν} {before after : Option ν} {xs ys : List ν} {n : ν}

theorem append_iff : Linked next prev before (xs ++ ys) after ↔
    Linked next prev before xs (ys.head?.or after) ∧
      Linked next prev (xs.getLast?.or before) ys after := by
  induction xs generalizing before with
  | nil => simp [Linked]
  | cons x xs ih => grind [Linked]

theorem split_iff : Linked next prev before (xs ++ n :: ys) after ↔
    Linked next prev before xs (some n) ∧ prev n = xs.getLast?.or before ∧
      next n = ys.head?.or after ∧ Linked next prev (some n) ys after := by
  rw [append_iff, List.head?_cons, Option.some_or, Linked]

theorem congr (h : Linked next prev before xs after) (hnext : ∀ n ∈ xs, next' n = next n)
    (hprev : ∀ n ∈ xs, prev' n = prev n) : Linked next' prev' before xs after := by
  induction xs generalizing before with
  | nil => trivial
  | cons x xs ih =>
    obtain ⟨hback, hforward, hrest⟩ := h
    refine ⟨(hprev x List.mem_cons_self).trans hback, (hnext x List.mem_cons_self).trans hforward,
      ih hrest (fun n hn => hnext n (List.mem_cons_of_mem _ hn))
        fun n hn => hprev n (List.mem_cons_of_mem _ hn)⟩

section Change

variable [DecidableEq ν]

theorem relinkAfter {after' : Option ν} (h : Linked next prev before xs after) (hnodup : xs.Nodup)
    (hprev : ∀ n ∈ xs, prev' n = prev n)
    (hnext : ∀ n ∈ xs, next' n = if xs.getLast? = some n then after' else next n) :
    Linked next' prev' before xs after' := by
  rcases List.eq_nil_or_concat xs with rfl | ⟨zs, z, rfl⟩
  · trivial
  · rw [List.concat_eq_append] at *
    obtain ⟨hzs, hback, -, -⟩ := split_iff.mp h
    refine split_iff.mpr ⟨hzs.congr (fun n hn => ?_) fun n hn => hprev n (by simp [hn]),
      (hprev z (by simp)).trans hback, ?_, trivial⟩
    · grind
    · rw [hnext z (by simp), List.getLast?_concat, if_pos rfl]
      rfl

theorem relinkBefore {before' : Option ν} (h : Linked next prev before xs after)
    (hnodup : xs.Nodup) (hnext : ∀ n ∈ xs, next' n = next n)
    (hprev : ∀ n ∈ xs, prev' n = if xs.head? = some n then before' else prev n) :
    Linked next' prev' before' xs after := by
  cases xs with
  | nil => trivial
  | cons x xs =>
    obtain ⟨-, hforward, hrest⟩ := h
    refine ⟨?_, (hnext x List.mem_cons_self).trans hforward,
      hrest.congr (fun n hn => hnext n (List.mem_cons_of_mem _ hn)) fun n hn => ?_⟩
    · rw [hprev x List.mem_cons_self, List.head?_cons, if_pos rfl]
    · grind

theorem insert (h : Linked next prev before (xs ++ ys) after) (hnodup : (xs ++ ys).Nodup)
    (hback : prev' n = xs.getLast?.or before) (hforward : next' n = ys.head?.or after)
    (hxs : ∀ m ∈ xs, prev' m = prev m ∧
      next' m = if xs.getLast? = some m then some n else next m)
    (hys : ∀ m ∈ ys, next' m = next m ∧
      prev' m = if ys.head? = some m then some n else prev m) :
    Linked next' prev' before (xs ++ n :: ys) after := by
  obtain ⟨hfirst, hsecond⟩ := append_iff.mp h
  obtain ⟨hnodupXs, hnodupYs, -⟩ := List.nodup_append.mp hnodup
  exact split_iff.mpr ⟨hfirst.relinkAfter hnodupXs (fun m hm => (hxs m hm).1)
    fun m hm => (hxs m hm).2, hback, hforward, hsecond.relinkBefore hnodupYs
    (fun m hm => (hys m hm).1) fun m hm => (hys m hm).2⟩

theorem remove (h : Linked next prev before (xs ++ n :: ys) after)
    (hnodup : (xs ++ n :: ys).Nodup)
    (hxs : ∀ m ∈ xs, prev' m = prev m ∧
      next' m = if xs.getLast? = some m then ys.head?.or after else next m)
    (hys : ∀ m ∈ ys, next' m = next m ∧
      prev' m = if ys.head? = some m then xs.getLast?.or before else prev m) :
    Linked next' prev' before (xs ++ ys) after := by
  obtain ⟨hfirst, -, -, hsecond⟩ := split_iff.mp h
  obtain ⟨hnodupXs, hnodupYs, -⟩ := List.nodup_append.mp hnodup
  exact append_iff.mpr ⟨hfirst.relinkAfter hnodupXs (fun m hm => (hxs m hm).1)
    fun m hm => (hxs m hm).2, hsecond.relinkBefore (List.nodup_cons.mp hnodupYs).2
    (fun m hm => (hys m hm).1) fun m hm => (hys m hm).2⟩

end Change

theorem next_eq (h : Linked next prev before (xs ++ n :: ys) after) :
    next n = ys.head?.or after :=
  (split_iff.mp h).2.2.1

theorem prev_eq (h : Linked next prev before (xs ++ n :: ys) after) :
    prev n = xs.getLast?.or before :=
  (split_iff.mp h).2.1

theorem visits (h : Linked next prev before xs none) : Visits next xs.head? xs := by
  induction xs generalizing before with
  | nil => rfl
  | cons x xs ih =>
    obtain ⟨-, hforward, hrest⟩ := h
    refine ⟨rfl, ?_⟩
    rw [hforward, Option.or_none]
    exact ih hrest

theorem visits_reverse (h : Linked next prev none xs after) :
    Visits prev xs.getLast? xs.reverse := by
  induction xs using List.reverseRecOn generalizing after with
  | nil => rfl
  | append_singleton xs x ih =>
    obtain ⟨hrest, hback, -, -⟩ := split_iff.mp h
    rw [List.reverse_concat, List.getLast?_concat]
    refine ⟨rfl, ?_⟩
    rw [hback, Option.or_none]
    exact ih hrest

end Linked

end Machine
