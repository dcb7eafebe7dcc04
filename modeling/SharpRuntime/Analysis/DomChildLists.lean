import SharpRuntime.Interface.NodeCalls

/-!
# The child lists of the document object model

What the checks and the moves do, then for each operation the lists it leaves.  The loops that
empty a fragment are followed by the children the fragment still has.
-/

set_option autoImplicit false

namespace SharpRuntime.Analysis.DomChildLists

open Machine Model Interface.NodeCalls
open XmlNode
open Forest

variable {ι : Type} [DecidableEq ι] {f : Forest ι} {a n this newChild : ι}

/-! ## Lists -/

variable {x : ι} {xs : List ι}

omit [DecidableEq ι] in
theorem split_of_mem (hmem : x ∈ xs) (hnodup : xs.Nodup) :
    ∃ l r, xs = l ++ x :: r ∧ x ∉ l ∧ x ∉ r := by
  obtain ⟨l, r, rfl⟩ := List.append_of_mem hmem
  obtain ⟨-, hr, hdisjoint⟩ := List.nodup_append.mp hnodup
  exact ⟨l, r, rfl, fun hl => hdisjoint x hl x List.mem_cons_self rfl, (List.nodup_cons.mp hr).1⟩

theorem without_singleton (hnodup : xs.Nodup) : without [n] xs = xs.erase n := by
  rw [without, hnodup.erase_eq_filter]
  refine List.filter_congr fun x _ => ?_
  by_cases hx : x = n <;> simp [hx]

variable {items : List ι}

theorem without_of_disjoint (hdisjoint : ∀ x ∈ xs, x ∉ items) : without items xs = xs :=
  List.filter_eq_self.mpr fun x hx => decide_eq_true (hdisjoint x hx)

theorem without_without (items rest xs : List ι) :
    without rest (without items xs) = without (items ++ rest) xs := by
  rw [without, without, without, List.filter_filter]
  refine List.filter_congr fun x _ => ?_
  grind

variable {rest : List ι}

theorem without_perm (hperm : items.Perm rest) (xs : List ι) : without items xs = without rest xs :=
  List.filter_congr fun _ _ => decide_eq_decide.mpr (not_congr hperm.mem_iff)

theorem without_nil (xs : List ι) : without [] xs = xs :=
  without_of_disjoint fun _ _ => List.not_mem_nil

variable {l r : List ι}

omit [DecidableEq ι] in
theorem flatMap_at {g : ι → List ι} (hl : x ∉ l) (hr : x ∉ r)
    (hother : ∀ y, y ≠ x → g y = [y]) : (l ++ x :: r).flatMap g = l ++ g x ++ r := by
  have hkeep : ∀ ys : List ι, x ∉ ys → ys.flatMap g = ys := by
    intro ys hys
    rw [List.flatMap_congr (fun y hy => hother y fun h => hys (h ▸ hy)), List.flatMap_singleton']
  rw [List.flatMap_append, List.flatMap_cons, hkeep l hl, hkeep r hr, List.append_assoc]

theorem putAfter_append (hl : a ∉ l) : putAfter a n (l ++ a :: r) = l ++ a :: n :: r := by
  induction l with
  | nil => exact if_pos rfl
  | cons b l ih =>
    grind [putAfter]

theorem previousIn_of_notMem (b : ι) (hl : n ∉ l) : previousIn n (b :: l) = none := by
  induction l generalizing b with
  | nil => rfl
  | cons c l ih => grind [previousIn]

theorem previousIn_append (hl : n ∉ l) (ha : a ≠ n) :
    previousIn n (l ++ a :: n :: r) = some a := by
  induction l with
  | nil => exact if_pos rfl
  | cons b l ih =>
    cases l with
    | nil =>
      simp [previousIn, ha]
    | cons c l =>
      grind [previousIn]

/-! ## One node put into a list -/

theorem without_append_cons (hx : x ≠ n) (l r : List ι) :
    without [n] (l ++ x :: r) = without [n] l ++ x :: without [n] r := by
  grind [without]

theorem notMem_without (hx : x ∉ xs) : x ∉ without items xs :=
  fun hmem => hx (List.mem_of_mem_filter hmem)

theorem without_of_notMem (hn : n ∉ xs) : without [n] xs = xs :=
  without_of_disjoint fun _ hx hmem => hn (List.mem_singleton.mp hmem ▸ hx)

def insertedBefore (n ref : ι) (xs : List ι) : List ι :=
  match previousIn ref xs with
  | none => n :: xs.erase n
  | some prev => if prev = n then xs else putAfter prev n (xs.erase n)

variable {ref : ι}

theorem insertedBefore_eq (hnodup : xs.Nodup) (href : ref ∈ xs) :
    insertedBefore n ref xs = arranged [n] xs (.before ref) := by
  obtain ⟨l, r, rfl, hl, hr⟩ := split_of_mem href hnodup
  rw [insertedBefore, arranged]
  by_cases hself : ref = n
  · -- The reference itself goes back to its place.
    subst hself
    rw [if_pos (List.mem_singleton_self ref), List.erase_append_right _ hl, List.erase_cons_head]
    obtain rfl | ⟨l, prev, rfl⟩ := List.eq_nil_or_concat' l
    · rw [List.nil_append, previousIn_of_notMem ref hr]
      rfl
    · grind [previousIn_append, putAfter_append]
  · rw [if_neg (mt List.mem_singleton.mp hself), without_append_cons hself,
      flatMap_at (notMem_without hl) (notMem_without hr) fun y hy => if_neg hy, if_pos rfl]
    obtain rfl | ⟨l, prev, rfl⟩ := List.eq_nil_or_concat' l
    · have herased : (ref :: r).erase n = ref :: without [n] r :=
        (without_singleton hnodup).symm.trans (without_append_cons hself [] r)
      rw [List.nil_append, previousIn_of_notMem ref hr, herased]
      rfl
    · obtain ⟨hl, hprev⟩ := not_or.mp (mt List.mem_append.mpr hl)
      have hne : prev ≠ ref := fun h => hprev (List.mem_singleton.mpr h.symm)
      have hnotMem : prev ∉ l := fun hmem =>
        (List.nodup_append.mp (List.nodup_append.mp hnodup).1).2.2 prev hmem prev
          (List.mem_singleton_self prev) rfl
      rw [List.append_assoc, List.singleton_append, previousIn_append hl hne]
      dsimp only
      by_cases hbefore : prev = n
      · -- The node stands before the reference already.
        subst hbefore
        have hnotRight : prev ∉ r := fun hmem =>
          (List.nodup_append.mp hnodup).2.2 prev (List.mem_append_right l List.mem_cons_self) prev
            (List.mem_cons_of_mem ref hmem) rfl
        have hleft : without [prev] (l ++ [prev]) = l := by
          rw [without, List.filter_append, List.filter_cons_of_neg (by simp), List.filter_nil,
            List.append_nil]
          exact without_of_notMem hnotMem
        simp [hleft, without_of_notMem hnotRight]
      · rw [if_neg hbefore, ← without_singleton (by simpa using hnodup),
          without_append_cons hbefore, putAfter_append (notMem_without hnotMem),
          without_append_cons hbefore, ← List.nil_append (ref :: r), without_append_cons hself]
        simp [without]

theorem insertedAfter_eq (hnodup : xs.Nodup) (href : ref ∈ xs) (hself : ref ≠ n) :
    putAfter ref n (xs.erase n) = arranged [n] xs (.after ref) := by
  obtain ⟨l, r, rfl, hl, hr⟩ := split_of_mem href hnodup
  rw [arranged, if_neg (mt List.mem_singleton.mp hself), ← without_singleton hnodup,
    without_append_cons hself, putAfter_append (notMem_without hl),
    flatMap_at (notMem_without hl) (notMem_without hr) fun y hy => if_neg hy, if_pos rfl,
    List.append_assoc]
  rfl

variable {old : ι}

theorem replaced_eq (hnodup : xs.Nodup) (hold : old ∈ xs) (hne : old ≠ n) :
    (arranged [n] xs (.before old)).erase old = arranged [n] xs (.insteadOf old) := by
  obtain ⟨l, r, rfl, hl, hr⟩ := split_of_mem hold hnodup
  have hself := mt List.mem_singleton.mp hne
  rw [arranged, arranged, if_neg hself, if_neg hself, without_append_cons hne,
    flatMap_at (notMem_without hl) (notMem_without hr) fun y hy => if_neg hy,
    flatMap_at (notMem_without hl) (notMem_without hr) fun y hy => if_neg hy, if_pos rfl,
    if_pos rfl]
  have hbehind : old ∉ without [n] l ++ [n] := by
    rw [List.mem_append, not_or]
    exact ⟨notMem_without hl, hself⟩
  grind

theorem nextIn_cons_self (c : ι) (rest : List ι) : nextIn c (c :: rest) = rest.head? := by
  cases rest with
  | nil => rfl
  | cons b rest => exact if_pos rfl

theorem previousIn_last {c : ι} (hc : c ∉ rest) :
    previousIn c (rest ++ [c]) = rest.getLast? := by
  obtain rfl | ⟨rest, b, rfl⟩ := List.eq_nil_or_concat' rest
  · rfl
  · grind [previousIn_append]

theorem mem_of_previousIn {prev : ι} (hprev : previousIn n xs = some prev) : prev ∈ xs := by
  induction xs with
  | nil => cases hprev
  | cons b xs ih =>
    cases xs with
    | nil => cases hprev
    | cons c xs => grind [previousIn]

/-! ## The checks -/

variable {fuel : ℕ}

theorem throwIfReached_root (hne : n ≠ a)
    (hroot : ∀ p, f.parent n ≠ some (.below p)) : throwIfReached a (fuel + 1) n f = .ok () f := by
  simp [throwIfReached, hne]

theorem throwIfReached_child {p : ι} (hne : n ≠ a) (hparent : f.parent n = some (.below p)) :
    throwIfReached a (fuel + 1) n f = throwIfReached a fuel p f := by
  rw [throwIfReached, if_neg hne, get_bind, hparent]

/-- The loop finds the candidate exactly when it is the node or above it, and it ends: along the
way up the nodes above become fewer. -/
theorem throwIfReached_eq [Finite ι] (hf : f.Consistent)
    (hfuel : {a | f.IsAbove a n}.ncard ≤ fuel) :
    (f.IsAbove a n ∧ throwIfReached a fuel n f = .error ancestorInserted f) ∨
    (¬ f.IsAbove a n ∧ throwIfReached a fuel n f = .ok () f) := by
  induction fuel generalizing n with
  | zero =>
    have hpos : 0 < {a | f.IsAbove a n}.ncard :=
      (Set.ncard_pos (Set.toFinite _)).mpr ⟨n, IsAbove.refl f n⟩
    omega
  | succ fuel ih =>
    by_cases hne : n = a
    · subst hne
      refine Or.inl ⟨IsAbove.refl f n, ?_⟩
      rw [throwIfReached, if_pos rfl]
      rfl
    by_cases hroot : ∃ p, f.parent n = some (.below p)
    · obtain ⟨p, hparent⟩ := hroot
      have hless := hf.ncard_above_lt hparent
      rw [throwIfReached_child hne hparent, isAbove_of_parent hparent,
        or_iff_right (Ne.symm hne)]
      exact ih (by omega)
    · have hroot := not_exists.mp hroot
      rw [isAbove_of_root hroot]
      exact Or.inr ⟨Ne.symm hne, throwIfReached_root hne hroot⟩

variable {child : ι} {message : String}

theorem childCheck_passes (hparent : f.parent child = some (.below this)) :
    throwIfNotChildOf this child message f = .ok () f := by
  rw [throwIfNotChildOf, get_bind, if_neg (not_not_intro hparent)]
  rfl

theorem childCheck_throws (hparent : f.parent child ≠ some (.below this)) :
    throwIfNotChildOf this child message f
      = .error (.runtime (.argument message "")) f := by
  rw [throwIfNotChildOf, get_bind, if_pos hparent]
  rfl

/-! ## The moves -/

/-- A forest in which one node has been put at a position below `this`. -/
structure Puts (f f' : Forest ι) (this n : ι) (position : Position ι) : Prop where
  consistent : f'.Consistent
  children : ∀ m, f'.children (.below m) =
    if m = this then arranged [n] (f.children (.below this)) position
    else without [n] (f.children (.below m))
  parent_self : f'.parent n = some (.below this)
  parent_other : ∀ x, x ≠ n → f'.parent x = f.parent x

variable {position : Position ι}

variable {put : List ι → List ι}

theorem puts_move (hf : f.Consistent) (hnot : ¬ f.IsAbove n this)
    (hperm : ∀ xs, (put xs).Perm (n :: xs))
    (hput : put ((f.children (.below this)).erase n)
      = arranged [n] (f.children (.below this)) position) :
    Puts f (f.move n (.below this) put) this n position := by
  refine ⟨hf.move hperm fun p hp => ?_, fun m => ?_, parent_move_self,
    fun x hx => parent_move_of_ne hx⟩
  · rwa [← Place.below.inj hp]
  · split
    case isTrue hm =>
      rw [hm, children_move_self, hput]
    case isFalse hm =>
      rw [children_move_of_ne fun h => hm (Place.below.inj h),
        without_singleton (hf.nodup _)]

omit [DecidableEq ι] in
theorem below_unique {x m : ι} (hf : f.Consistent) (hmem : x ∈ f.children (.below m))
    (hparent : f.parent x = some (.below n)) : m = n :=
  Place.below.inj (Option.some.inj (((hf.mem_children _ _).mp hmem).symm.trans hparent))

theorem puts_same (hf : f.Consistent) (hparent : f.parent n = some (.below this))
    (hsame : f.children (.below this) = arranged [n] (f.children (.below this)) position) :
    Puts f f this n position := by
  refine ⟨hf, fun m => ?_, hparent, fun _ _ => rfl⟩
  split
  case isTrue hm => rw [hm, ← hsame]
  case isFalse hm =>
    exact (without_of_notMem fun hmem => hm (below_unique hf hmem hparent)).symm

theorem insertFirstChild_puts (hf : f.Consistent) (hnot : ¬ f.IsAbove n this) :
    ∃ f', insertFirstChild this n f = .ok () f' ∧ Puts f f' this n .first := by
  refine ⟨_, rfl, puts_move hf hnot (fun xs => List.Perm.refl _) ?_⟩
  rw [arranged, without_singleton (hf.nodup _)]
  rfl

theorem insertEndChild_puts (hf : f.Consistent) (hnot : ¬ f.IsAbove n this) :
    ∃ f', insertEndChild this n f = .ok () f' ∧ Puts f f' this n .last := by
  refine ⟨_, rfl, puts_move hf hnot (List.perm_append_singleton n) ?_⟩
  rw [arranged, without_singleton (hf.nodup _)]

theorem insertBefore_puts (hf : f.Consistent) (hnot : ¬ f.IsAbove n this)
    (href : f.parent ref = some (.below this)) :
    ∃ f', (match getPreviousSiblingProperty f ref with
      | none => insertFirstChild this n
      | some prevSibling => insertAfterChild this prevSibling n) f = .ok () f' ∧
      Puts f f' this n (.before ref) := by
  have hlist := insertedBefore_eq (n := n) (hf.nodup _) ((hf.mem_children ref _).mpr href)
  rw [getPreviousSiblingProperty, href, Option.bind_some]
  rw [insertedBefore] at hlist
  cases hprev : previousIn ref (f.children (.below this)) with
  | none =>
    rw [hprev] at hlist
    exact ⟨_, rfl, puts_move hf hnot (fun xs => List.Perm.refl _) hlist⟩
  | some prev =>
    rw [hprev] at hlist
    dsimp only at hlist ⊢
    have hparent : f.parent prev = some (.below this) :=
      (hf.mem_children prev _).mp (mem_of_previousIn hprev)
    rw [insertAfterChild, get_bind, if_neg (not_not_intro hparent)]
    by_cases hsame : prev = n
    · subst hsame
      rw [if_pos rfl] at hlist ⊢
      exact ⟨f, rfl, puts_same hf hparent hlist⟩
    · rw [if_neg hsame] at hlist ⊢
      exact ⟨_, rfl, puts_move hf hnot (perm_putAfter prev n) hlist⟩

theorem insertAfter_puts (hf : f.Consistent) (hnot : ¬ f.IsAbove n this)
    (href : f.parent ref = some (.below this)) :
    ∃ f', insertAfterChild this ref n f = .ok () f' ∧ Puts f f' this n (.after ref) := by
  rw [insertAfterChild, get_bind, if_neg (not_not_intro href)]
  by_cases hsame : ref = n
  · subst hsame
    rw [if_pos rfl]
    refine ⟨f, rfl, puts_same hf href ?_⟩
    rw [arranged, if_pos (List.mem_singleton_self ref)]
  · rw [if_neg hsame]
    refine ⟨_, rfl, puts_move hf hnot (perm_putAfter ref n) ?_⟩
    exact insertedAfter_eq (hf.nodup _) ((hf.mem_children ref _).mpr href) hsame

variable {handlers : NodeHandlers ι}

omit [DecidableEq ι] in
theorem reported_eq (hsilent : Silent handlers) (change : NodeChange ι) (p : NodeProgram ι Unit) :
    reported handlers change p = p := by
  have hchanging : handlers.raiseNodeChanging change = pure () :=
    funext (hsilent.changing change)
  have hchanged : handlers.raiseNodeChanged change = pure () := funext (hsilent.changed change)
  rw [reported, hchanging, hchanged, pure_bind]
  exact bind_pure p

omit [DecidableEq ι] in
theorem insertReported_eq (hsilent : Silent handlers) (this newChild : ι)
    (p : NodeProgram ι Unit) :
    insertReported handlers this newChild p = p >>= fun _ => pure (some newChild) := by
  funext f
  rw [insertReported, get_bind, reported_eq hsilent]

theorem removeChild_ok (hsilent : Silent handlers) (hparent : f.parent old = some (.below this)) :
    removeChild handlers this (some old) f
      = .ok (some old) (f.move old .aside (· ++ [old])) := by
  rw [removeChild, bind_ok (childCheck_passes hparent), reported_eq hsilent]
  rfl

theorem removeChild_throws (hparent : f.parent old ≠ some (.below this)) :
    removeChild handlers this (some old) f = .error
      (.runtime (.argument "The node to be removed is not a child of this node." "")) f := by
  rw [removeChild, bind_error (childCheck_throws hparent)]

theorem consistent_detached (hf : f.Consistent) (old : ι) :
    (f.move old .aside (· ++ [old])).Consistent :=
  hf.move (List.perm_append_singleton old) fun _ h => nomatch h

variable [Fintype ι]

theorem check_eq (hf : f.Consistent) (newChild this : ι) :
    (f.IsAbove newChild this ∧
      throwIfSelfOrAncestor this newChild f = .error ancestorInserted f) ∨
    (¬ f.IsAbove newChild this ∧ throwIfSelfOrAncestor this newChild f = .ok () f) := by
  refine throwIfReached_eq hf ?_
  rw [← Nat.card_eq_fintype_card]
  exact Set.ncard_le_card _

theorem check_passes (hf : f.Consistent) (hnot : ¬ f.IsAbove newChild this) :
    throwIfSelfOrAncestor this newChild f = .ok () f := by
  obtain ⟨habove, -⟩ | ⟨-, hpasses⟩ := check_eq hf newChild this
  · exact absurd habove hnot
  · exact hpasses

/-! ## The children of a fragment -/

/-- One child of a fragment has gone, by way of the holder, to a position below `this`. -/
structure Transfers (f f' : Forest ι) (this frag child : ι) (put : List ι → List ι) : Prop where
  consistent : f'.Consistent
  not_above : ¬ f'.IsAbove frag this
  children : ∀ m, f'.children (.below m) =
    if m = this then put (f.children (.below this)) else without [child] (f.children (.below m))

variable {frag : ι} {f' : Forest ι}

omit [Fintype ι] in
theorem transfers_move (hf : f.Consistent)
    (hnot : ¬ f.IsAbove frag this) (hchild : f.parent child = some (.below frag))
    (hperm : ∀ xs, (put xs).Perm (child :: xs)) :
    Transfers f ((f.move child .aside (· ++ [child])).move child (.below this) put) this frag child
      put := by
  have hchildNot : ¬ f.IsAbove child this := fun habove =>
    hnot (IsAbove.of_child hchild habove)
  have hdetached := consistent_detached hf child
  have hstill : ¬ (f.move child .aside (· ++ [child])).IsAbove child this := fun habove =>
    hchildNot ((isAbove_move_iff hchildNot).mp habove)
  have hthis : this ≠ frag := by
    rintro rfl
    exact hnot (IsAbove.refl f this)
  have haside : ∀ m, (f.move child .aside (· ++ [child])).children (.below m)
      = (f.children (.below m)).erase child := fun _ => children_move_aside
  refine ⟨hdetached.move hperm fun p hp => ?_, fun habove => hnot ?_, fun m => ?_⟩
  · rwa [← Place.below.inj hp]
  · exact (isAbove_move_iff hchildNot).mp ((isAbove_move_iff hstill).mp habove)
  · have hgone : child ∉ (f.children (.below m)).erase child := (hf.nodup _).not_mem_erase
    split
    case isTrue hm =>
      subst hm
      have hnotMem : child ∉ f.children (.below m) := fun hmem =>
        hthis (below_unique hf hmem hchild)
      rw [children_move_self, haside, List.erase_of_not_mem hgone,
        List.erase_of_not_mem hnotMem]
    case isFalse hm =>
      rw [children_move_of_ne fun h => hm (Place.below.inj h), haside,
        List.erase_of_not_mem hgone, without_singleton (hf.nodup _)]

omit [Fintype ι] in
theorem Transfers.children_frag (h : Transfers f f' this frag child put) :
    f'.children (.below frag) = without [child] (f.children (.below frag)) := by
  refine (h.children frag).trans (if_neg ?_)
  rintro rfl
  exact h.not_above (IsAbove.refl f' frag)

variable {cs : List ι}

theorem appendChildren_ok (hsilent : Silent handlers) (last : Option ι) (hf : f.Consistent)
    (hnot : ¬ f.IsAbove frag this)
    (hcs : f.children (.below frag) = cs) (hfuel : cs.length ≤ fuel) :
    ∃ r f', appendChildren handlers this frag fuel cs.head? last f = .ok r f' ∧ f'.Consistent ∧
      ∀ m, f'.children (.below m) =
        if m = this then f.children (.below this) ++ cs else without cs (f.children (.below m)) := by
  induction cs generalizing f fuel last with
  | nil =>
    refine ⟨last, f, by rw [List.head?_nil, appendChildren]; rfl, hf, fun m => ?_⟩
    rw [List.append_nil, without_nil]
    split
    case isTrue hm => rw [hm]
    case isFalse => rfl
  | cons c rest ih =>
    obtain ⟨fuel, rfl⟩ : ∃ k, fuel = k + 1 := Nat.exists_eq_succ_of_ne_zero fun h => by grind
    have hchild : f.parent c = some (.below frag) :=
      (hf.mem_children _ _).mp (hcs ▸ List.mem_cons_self)
    have hnext : getNextSiblingProperty f c = rest.head? := by
      rw [getNextSiblingProperty, hchild, Option.bind_some, hcs, nextIn_cons_self]
    have htransfers := transfers_move hf hnot hchild (List.perm_append_singleton c)
    have hnotMem : c ∉ rest := (List.nodup_cons.mp (hcs ▸ hf.nodup _)).1
    have hempties : without [c] (c :: rest) = rest := by
      rw [without, List.filter_cons_of_neg (by simp)]
      exact without_of_notMem hnotMem
    obtain ⟨r, f', hrun, hconsistent, hchildren⟩ := ih (some c) htransfers.consistent
      htransfers.not_above (htransfers.children_frag.trans (hcs ▸ hempties))
      (Nat.le_of_succ_le_succ hfuel)
    refine ⟨r, f', ?_, hconsistent, fun m => ?_⟩
    · rw [List.head?_cons, appendChildren, get_bind,
        bind_ok (check_passes hf fun habove =>
          hnot (IsAbove.of_child hchild habove)),
        bind_ok (removeChild_ok hsilent hchild), hnext,
        reported_eq hsilent]
      exact hrun
    · grind [htransfers.children, without_without]

theorem prependChildren_ok (hsilent : Silent handlers) (first : Option ι) (hf : f.Consistent)
    (hnot : ¬ f.IsAbove frag this)
    (hcs : f.children (.below frag) = cs) (hfuel : cs.length ≤ fuel) :
    ∃ r f', prependChildren handlers this frag fuel cs.getLast? first f = .ok r f' ∧ f'.Consistent ∧
      ∀ m, f'.children (.below m) =
        if m = this then cs ++ f.children (.below this) else without cs (f.children (.below m)) := by
  induction cs using List.reverseRecOn generalizing f fuel first with
  | nil =>
    refine ⟨first, f, by rw [List.getLast?_nil, prependChildren]; rfl, hf, fun m => ?_⟩
    rw [List.nil_append, without_nil]
    split
    case isTrue hm => rw [hm]
    case isFalse => rfl
  | append_singleton rest c ih =>
    rw [List.length_append, List.length_singleton] at hfuel
    obtain ⟨fuel, rfl⟩ : ∃ k, fuel = k + 1 := Nat.exists_eq_succ_of_ne_zero fun h => by omega
    have hchild : f.parent c = some (.below frag) :=
      (hf.mem_children _ _).mp (hcs ▸ List.mem_append_right rest (List.mem_singleton_self c))
    have hnotMem : c ∉ rest := fun hmem =>
      (List.nodup_append.mp (hcs ▸ hf.nodup (.below frag))).2.2 c hmem c
        (List.mem_singleton_self c) rfl
    have hprev : getPreviousSiblingProperty f c = rest.getLast? := by
      rw [getPreviousSiblingProperty, hchild, Option.bind_some, hcs, previousIn_last hnotMem]
    have htransfers := transfers_move hf hnot hchild fun xs => List.Perm.refl (c :: xs)
    have hempties : without [c] (rest ++ [c]) = rest := by
      rw [without, List.filter_append, List.filter_cons_of_neg (by simp), List.filter_nil,
        List.append_nil]
      exact without_of_notMem hnotMem
    obtain ⟨r, f', hrun, hconsistent, hchildren⟩ := ih (some c) htransfers.consistent
      htransfers.not_above (htransfers.children_frag.trans (hcs ▸ hempties))
      (Nat.le_of_succ_le_succ hfuel)
    refine ⟨r, f', ?_, hconsistent, fun m => ?_⟩
    · rw [List.getLast?_concat, prependChildren, get_bind,
        bind_ok (check_passes hf fun habove => hnot (IsAbove.of_child hchild habove)),
        bind_ok (removeChild_ok hsilent hchild), hprev,
        reported_eq hsilent]
      exact hrun
    · grind [htransfers.children, without_without, without_perm]

/-! ## The change each operation states -/

variable {isFragment : ι → Bool}

omit [DecidableEq ι] [Fintype ι] in
theorem itemsOf_node (hnode : isFragment n = false) : itemsOf isFragment f n = [n] := by
  rw [itemsOf, if_neg (by rw [hnode]; exact Bool.false_ne_true)]

omit [DecidableEq ι] [Fintype ι] in
theorem itemsOf_fragment (hfragment : isFragment n = true) :
    itemsOf isFragment f n = f.children (.below n) :=
  if_pos hfragment

omit [Fintype ι] in
theorem Puts.eq_placed (hputs : Puts f f' this n position) (hnode : isFragment n = false) (m : ι) :
    f'.children (.below m) = placed isFragment f this n position m := by
  rw [hputs.children, placed, itemsOf_node hnode]

omit [DecidableEq ι] in
theorem length_children_le (hf : f.Consistent) (q : Place ι) :
    (f.children q).length ≤ Fintype.card ι :=
  (hf.nodup q).length_le_card

/-- `appendChild` and `prependChild`: the check, then the children of a fragment or the node. -/
theorem inserts_cases {loop : NodeProgram ι (Option ι)} {insert : NodeProgram ι Unit}
    (hf : f.Consistent)
    (hloop : ¬ f.IsAbove newChild this → ∃ r f', loop f = .ok r f' ∧ f'.Consistent ∧
      ∀ m, f'.children (.below m) =
        if m = this then arranged (f.children (.below newChild)) (f.children (.below this)) position
        else without (f.children (.below newChild)) (f.children (.below m)))
    (hinsert : ¬ f.IsAbove newChild this →
      ∃ f', insert f = .ok () f' ∧ Puts f f' this newChild position) :
    let run : NodeProgram ι (Option ι) := throwIfSelfOrAncestor this newChild >>= fun _ =>
      if isFragment newChild then loop else insert >>= fun _ => pure (some newChild)
    (f.IsAbove newChild this ∧ run f = .error ancestorInserted f) ∨
    (¬ f.IsAbove newChild this ∧ ∃ r f', run f = .ok r f' ∧ f'.Consistent ∧
      ∀ m, f'.children (.below m) = placed isFragment f this newChild position m) := by
  refine (check_eq hf newChild this).imp (fun h => ⟨h.1, bind_error h.2⟩) fun h => ⟨h.1, ?_⟩
  obtain ⟨hnot, hpasses⟩ := h
  rw [bind_ok hpasses]
  cases hkind : isFragment newChild with
  | true =>
    obtain ⟨r, f', hrun, hconsistent, hchildren⟩ := hloop hnot
    refine ⟨r, f', hrun, hconsistent, fun m => ?_⟩
    rw [hchildren, placed, itemsOf_fragment hkind]
  | false =>
    obtain ⟨f', hrun, hputs⟩ := hinsert hnot
    exact ⟨some newChild, f', bind_ok hrun, hputs.consistent, hputs.eq_placed hkind⟩

omit [Fintype ι] in
theorem without_fragment (hf : f.Consistent) (hnot : ¬ f.IsAbove newChild this) :
    without (f.children (.below newChild)) (f.children (.below this)) =
      f.children (.below this) := by
  refine without_of_disjoint fun x hx hmem => hnot ?_
  rw [below_unique hf hx ((hf.mem_children _ _).mp hmem)]
  exact IsAbove.refl f _

theorem appendChild_cases (hsilent : Silent handlers) (hf : f.Consistent) (isFragment : ι → Bool)
    (this newChild : ι) :
    (f.IsAbove newChild this ∧
      appendChild handlers isFragment this (some newChild) f = .error ancestorInserted f) ∨
    (¬ f.IsAbove newChild this ∧
      ∃ r f', appendChild handlers isFragment this (some newChild) f = .ok r f' ∧ f'.Consistent ∧
        ∀ m, f'.children (.below m) = placed isFragment f this newChild .last m) := by
  rw [appendChild, insertReported_eq hsilent]
  refine inserts_cases hf (fun hnot => ?_) (insertEndChild_puts hf)
  rw [get_bind, arranged, without_fragment hf hnot]
  exact appendChildren_ok hsilent none hf hnot rfl (length_children_le hf _)

theorem prependChild_cases (hsilent : Silent handlers) (hf : f.Consistent) (isFragment : ι → Bool)
    (this newChild : ι) :
    (f.IsAbove newChild this ∧
      prependChild handlers isFragment this (some newChild) f = .error ancestorInserted f) ∨
    (¬ f.IsAbove newChild this ∧
      ∃ r f', prependChild handlers isFragment this (some newChild) f = .ok r f' ∧ f'.Consistent ∧
        ∀ m, f'.children (.below m) = placed isFragment f this newChild .first m) := by
  rw [prependChild, insertReported_eq hsilent]
  refine inserts_cases hf (fun hnot => ?_) (insertFirstChild_puts hf)
  rw [get_bind, arranged, without_fragment hf hnot]
  exact prependChildren_ok hsilent none hf hnot rfl (length_children_le hf _)

theorem checked_cases {rest : NodeProgram ι (Option ι)} (hf : f.Consistent)
    (hrest : ¬ f.IsAbove newChild this → f.parent ref = some (.below this) →
      ∃ f', rest f = .ok (some newChild) f' ∧ Puts f f' this newChild position) :
    (Refused f this newChild ref ∧ ∃ e, e ≠ .diverged ∧
      ((throwIfSelfOrAncestor this newChild >>= fun _ =>
        throwIfNotChildOf this ref message >>= fun _ => rest) : NodeProgram ι (Option ι)) f
        = .error e f) ∨
    (¬ Refused f this newChild ref ∧ ∃ f',
      ((throwIfSelfOrAncestor this newChild >>= fun _ =>
        throwIfNotChildOf this ref message >>= fun _ => rest) : NodeProgram ι (Option ι)) f
        = .ok (some newChild) f' ∧ Puts f f' this newChild position) := by
  obtain ⟨habove, hthrows⟩ | ⟨hnot, hpasses⟩ := check_eq hf newChild this
  · exact Or.inl ⟨Or.inl habove, ancestorInserted, fun h => (nomatch h), bind_error hthrows⟩
  · rw [bind_ok hpasses]
    by_cases href : f.parent ref = some (.below this)
    · rw [bind_ok (childCheck_passes href)]
      refine Or.inr ⟨?_, hrest hnot href⟩
      rintro (habove | hforeign)
      · exact hnot habove
      · exact hforeign href
    · rw [bind_error (childCheck_throws href)]
      exact Or.inl ⟨Or.inr href, .runtime (.argument message ""), fun h => (nomatch h), rfl⟩

theorem insertBefore_cases (hsilent : Silent handlers) (hf : f.Consistent) (isFragment : ι → Bool)
    (this newChild ref : ι) :
    (Refused f this newChild ref ∧ ∃ e, e ≠ .diverged ∧
      insertBefore handlers isFragment this (some newChild) (some ref) f = .error e f) ∨
    (¬ Refused f this newChild ref ∧ ∃ f',
      insertBefore handlers isFragment this (some newChild) (some ref) f = .ok (some newChild) f' ∧
      Puts f f' this newChild (.before ref)) := by
  refine checked_cases hf fun hnot href => ?_
  obtain ⟨f', hrun, hputs⟩ := insertBefore_puts hf hnot href
  rw [get_bind, insertReported_eq hsilent]
  refine ⟨f', ?_, hputs⟩
  cases hprev : getPreviousSiblingProperty f ref with
  | none =>
    rw [hprev] at hrun
    exact bind_ok hrun
  | some prev =>
    rw [hprev] at hrun
    exact bind_ok hrun

theorem insertAfter_cases (hsilent : Silent handlers) (hf : f.Consistent) (isFragment : ι → Bool)
    (this newChild ref : ι) :
    (Refused f this newChild ref ∧ ∃ e, e ≠ .diverged ∧
      insertAfter handlers isFragment this (some newChild) (some ref) f = .error e f) ∨
    (¬ Refused f this newChild ref ∧ ∃ f',
      insertAfter handlers isFragment this (some newChild) (some ref) f = .ok (some newChild) f' ∧
      Puts f f' this newChild (.after ref)) := by
  rw [insertAfter, insertReported_eq hsilent]
  refine checked_cases hf fun hnot href => ?_
  obtain ⟨f', hrun, hputs⟩ := insertAfter_puts hf hnot href
  exact ⟨f', bind_ok hrun, hputs⟩

theorem replaceChild_cases (hsilent : Silent handlers) (hf : f.Consistent) (isFragment : ι → Bool)
    (this newChild old : ι) :
    (Refused f this newChild old ∧ ∃ e, e ≠ .diverged ∧
      replaceChild handlers isFragment this (some newChild) (some old) f = .error e f) ∨
    (¬ Refused f this newChild old ∧ ∃ f', Puts f f' this newChild (.before old) ∧
      replaceChild handlers isFragment this (some newChild) (some old) f
        = .ok (some old) (f'.move old .aside (· ++ [old]))) := by
  rw [replaceChild]
  by_cases hold : f.parent old = some (.below this)
  · refine (insertBefore_cases hsilent hf isFragment this newChild old).imp ?_ ?_
    · rintro ⟨hrefused, e, he, hthrows⟩
      refine ⟨hrefused, e, he, ?_⟩
      exact (bind_ok (childCheck_passes hold)).trans (bind_error hthrows)
    · rintro ⟨hallowed, f', hrun, hputs⟩
      refine ⟨hallowed, f', hputs, ?_⟩
      have hstill : f'.parent old = some (.below this) := by
        grind [hputs.parent_other, hputs.parent_self]
      refine (bind_ok (childCheck_passes hold)).trans ((bind_ok hrun).trans ?_)
      rw [bind_ok (removeChild_ok hsilent hstill)]
      rfl
  · refine Or.inl ⟨Or.inr hold, .runtime (.argument
      "The node to be replaced is not a child of this node." ""), fun h => (nomatch h), ?_⟩
    rw [bind_error (childCheck_throws hold)]

/-! ## No cycle -/

theorem appendChild_consistent (hsilent : Silent handlers) (hf : f.Consistent) (isFragment : ι → Bool)
    (this newChild : ι) :
    (after (appendChild handlers isFragment this (some newChild) f)).Consistent := by
  obtain ⟨-, hrun⟩ | ⟨-, r, f', hrun, hconsistent, -⟩ :=
    appendChild_cases hsilent hf isFragment this newChild
  · rwa [hrun]
  · rwa [hrun]

theorem prependChild_consistent (hsilent : Silent handlers) (hf : f.Consistent) (isFragment : ι → Bool)
    (this newChild : ι) :
    (after (prependChild handlers isFragment this (some newChild) f)).Consistent := by
  obtain ⟨-, hrun⟩ | ⟨-, r, f', hrun, hconsistent, -⟩ :=
    prependChild_cases hsilent hf isFragment this newChild
  · rwa [hrun]
  · rwa [hrun]

theorem run_consistent (hsilent : Silent handlers) (hf : f.Consistent) (isFragment : ι → Bool)
    (this : ι)
    (call : NodeCall ι) : (after (call.run handlers isFragment this f)).Consistent := by
  cases call with
  | prependChild newChild => exact prependChild_consistent hsilent hf isFragment this newChild
  | appendChild newChild => exact appendChild_consistent hsilent hf isFragment this newChild
  | insertBefore newChild refChild =>
    cases refChild with
    | none => exact appendChild_consistent hsilent hf isFragment this newChild
    | some ref =>
      rw [NodeCall.run]
      obtain ⟨-, e, -, hrun⟩ | ⟨-, f', hrun, hputs⟩ :=
        insertBefore_cases hsilent hf isFragment this newChild ref
      · rw [hrun]
        exact hf
      · rw [hrun]
        exact hputs.consistent
  | insertAfter newChild refChild =>
    cases refChild with
    | none => exact prependChild_consistent hsilent hf isFragment this newChild
    | some ref =>
      rw [NodeCall.run]
      obtain ⟨-, e, -, hrun⟩ | ⟨-, f', hrun, hputs⟩ :=
        insertAfter_cases hsilent hf isFragment this newChild ref
      · rw [hrun]
        exact hf
      · rw [hrun]
        exact hputs.consistent
  | removeChild oldChild =>
    rw [NodeCall.run]
    by_cases hold : f.parent oldChild = some (.below this)
    · rw [removeChild_ok hsilent hold]
      exact consistent_detached hf oldChild
    · rw [removeChild_throws hold]
      exact hf
  | replaceChild newChild oldChild =>
    rw [NodeCall.run]
    obtain ⟨-, e, -, hrun⟩ | ⟨-, f', hputs, hrun⟩ :=
      replaceChild_cases hsilent hf isFragment this newChild oldChild
    · rw [hrun]
      exact hf
    · rw [hrun]
      exact consistent_detached hputs.consistent oldChild

/-! ## The condition -/

omit [Fintype ι] in
theorem mem_of_mem_arranged (hx : x ∈ arranged items xs position) : x ∈ items ∨ x ∈ xs := by
  have hwithout : ∀ {y : ι}, y ∈ without items xs → y ∈ xs := fun h => List.mem_of_mem_filter h
  have hflat : ∀ {g : ι → List ι}, (∀ y, ∀ z ∈ g y, z ∈ items ∨ z = y) →
      x ∈ (without items xs).flatMap g → x ∈ items ∨ x ∈ xs := by grind
  cases position with
  | first => exact (List.mem_append.mp hx).imp id hwithout
  | last => exact (List.mem_append.mp hx).symm.imp id hwithout
  | before ref => grind [arranged]
  | after ref => grind [arranged]
  | insteadOf old => grind [arranged]

omit [Fintype ι] in
theorem replaced_placed (hf : f.Consistent)
    (hputs : Puts f f' this newChild (.before old)) (hold : f.parent old = some (.below this))
    (hnode : isFragment newChild = false) (hne : old ≠ newChild) (m : ι) :
    (f'.move old .aside (· ++ [old])).children (.below m)
      = placed isFragment f this newChild (.insteadOf old) m := by
  rw [children_move_aside, hputs.children, placed, itemsOf_node hnode]
  by_cases hm : m = this
  · rw [if_pos hm, if_pos hm]
    exact replaced_eq (hf.nodup _) ((hf.mem_children _ _).mpr hold) hne
  · rw [if_neg hm, if_neg hm]
    exact List.erase_of_not_mem (notMem_without fun hmem => hm (below_unique hf hmem hold))

variable {call : NodeCall ι}

theorem appendChild_states (hsilent : Silent handlers) (hf : f.Consistent) (newChild : ι) :
    MakesStatedChange handlers isFragment f this (.appendChild newChild) := by
  rw [MakesStatedChange, NodeCall.run]
  obtain ⟨-, hrun⟩ | ⟨-, r, f', hrun, -, hchildren⟩ :=
    appendChild_cases hsilent hf isFragment this newChild
  · rw [hrun]
    exact ⟨fun h => (nomatch h), fun _ => rfl⟩
  · rw [hrun]
    exact hchildren

theorem prependChild_states (hsilent : Silent handlers) (hf : f.Consistent) (newChild : ι) :
    MakesStatedChange handlers isFragment f this (.prependChild newChild) := by
  rw [MakesStatedChange, NodeCall.run]
  obtain ⟨-, hrun⟩ | ⟨-, r, f', hrun, -, hchildren⟩ :=
    prependChild_cases hsilent hf isFragment this newChild
  · rw [hrun]
    exact ⟨fun h => (nomatch h), fun _ => rfl⟩
  · rw [hrun]
    exact hchildren

theorem makesStatedChange (hsilent : Silent handlers) (hf : f.Consistent)
    (hkeeps : KeepsToItsWord isFragment f this call) :
    MakesStatedChange handlers isFragment f this call := by
  cases call with
  | prependChild newChild => exact prependChild_states hsilent hf newChild
  | appendChild newChild => exact appendChild_states hsilent hf newChild
  | insertBefore newChild refChild =>
    cases refChild with
    | none => exact appendChild_states hsilent hf newChild
    | some ref =>
      rw [MakesStatedChange, NodeCall.run]
      obtain ⟨-, e, he, hrun⟩ | ⟨hallowed, f', hrun, hputs⟩ :=
        insertBefore_cases hsilent hf isFragment this newChild ref
      · grind
      · rw [hrun]
        exact hputs.eq_placed (Bool.eq_false_iff.mpr fun hkind => hallowed (hkeeps hkind))
  | insertAfter newChild refChild =>
    cases refChild with
    | none => exact prependChild_states hsilent hf newChild
    | some ref =>
      rw [MakesStatedChange, NodeCall.run]
      obtain ⟨-, e, he, hrun⟩ | ⟨hallowed, f', hrun, hputs⟩ :=
        insertAfter_cases hsilent hf isFragment this newChild ref
      · grind
      · rw [hrun]
        exact hputs.eq_placed (Bool.eq_false_iff.mpr fun hkind => hallowed (hkeeps hkind))
  | removeChild oldChild =>
    rw [MakesStatedChange, NodeCall.run]
    by_cases hold : f.parent oldChild = some (.below this)
    · rw [removeChild_ok hsilent hold]
      intro m
      rw [stated, children_move_aside]
      dsimp only
      by_cases hm : m = this
      · rw [if_pos hm, without_singleton (hf.nodup _)]
      · rw [if_neg hm]
        exact List.erase_of_not_mem fun hmem => hm (below_unique hf hmem hold)
    · simp [removeChild_throws hold]
  | replaceChild newChild oldChild =>
    rw [MakesStatedChange, NodeCall.run]
    obtain ⟨-, e, he, hrun⟩ | ⟨hallowed, f', hputs, hrun⟩ :=
      replaceChild_cases hsilent hf isFragment this newChild oldChild
    · rw [hrun]
      exact ⟨he, fun _ => rfl⟩
    · rw [hrun]
      obtain ⟨hkind, hne⟩ := not_or.mp (mt hkeeps hallowed)
      have hold : f.parent oldChild = some (.below this) :=
        not_not.mp fun hforeign => hallowed (Or.inr hforeign)
      exact replaced_placed hf hputs hold (Bool.eq_false_iff.mpr hkind) (Ne.symm hne)

omit [Fintype ι] in
theorem fragment_notMem (hf : DocumentForest isFragment f)
    (hkind : isFragment frag = true) (position : Position ι) :
    frag ∉ placed isFragment f this frag position this := by
  have hroot := hf.fragment_root frag hkind
  have hnowhere : ∀ q, frag ∉ f.children q := fun q hmem => by
    have hplace := (hf.consistent.mem_children _ _).mp hmem
    rw [hroot] at hplace
    cases hplace
  rw [placed, if_pos rfl, itemsOf_fragment hkind]
  intro hmem
  obtain hitem | hlisted := mem_of_mem_arranged hmem
  · exact hnowhere _ hitem
  · exact hnowhere _ hlisted

theorem keepsToItsWord (hsilent : Silent handlers) (hf : DocumentForest isFragment f)
    (hmakes : MakesStatedChange handlers isFragment f this call) :
    KeepsToItsWord isFragment f this call := by
  rw [MakesStatedChange] at hmakes
  cases call with
  | prependChild newChild => exact trivial
  | appendChild newChild => exact trivial
  | removeChild oldChild => exact trivial
  | insertBefore newChild refChild =>
    cases refChild with
    | none => exact trivial
    | some ref =>
      intro hkind
      rw [NodeCall.run] at hmakes
      obtain ⟨hrefused, -⟩ | ⟨-, f', hrun, hputs⟩ :=
        insertBefore_cases hsilent hf.consistent isFragment this newChild ref
      · exact hrefused
      · rw [hrun] at hmakes
        have hmem := (hputs.consistent.mem_children _ _).mpr hputs.parent_self
        rw [hmakes this] at hmem
        exact absurd hmem (fragment_notMem hf hkind _)
  | insertAfter newChild refChild =>
    cases refChild with
    | none => exact trivial
    | some ref =>
      intro hkind
      rw [NodeCall.run] at hmakes
      obtain ⟨hrefused, -⟩ | ⟨-, f', hrun, hputs⟩ :=
        insertAfter_cases hsilent hf.consistent isFragment this newChild ref
      · exact hrefused
      · rw [hrun] at hmakes
        have hmem := (hputs.consistent.mem_children _ _).mpr hputs.parent_self
        rw [hmakes this] at hmem
        exact absurd hmem (fragment_notMem hf hkind _)
  | replaceChild newChild oldChild =>
    intro hcase
    rw [NodeCall.run] at hmakes
    obtain ⟨hrefused, -⟩ | ⟨hallowed, f', hputs, hrun⟩ :=
      replaceChild_cases hsilent hf.consistent isFragment this newChild oldChild
    · exact hrefused
    rw [hrun] at hmakes
    have hold : f.parent oldChild = some (.below this) :=
      not_not.mp fun hforeign => hallowed (Or.inr hforeign)
    have hkindOld : isFragment oldChild = false := Bool.eq_false_iff.mpr fun hkind => by
      have hroot := hf.fragment_root oldChild hkind
      rw [hold] at hroot
      cases hroot
    have hlist := hmakes this
    rw [children_move_aside] at hlist
    by_cases hself : newChild = oldChild
    · -- The child has gone, and should have stayed.
      subst hself
      have hgone : newChild ∉ (f'.children (.below this)).erase newChild :=
        (hputs.consistent.nodup _).not_mem_erase
      rw [hlist, stated, placed, if_pos rfl, itemsOf_node hkindOld, arranged,
        if_pos (List.mem_singleton_self newChild)] at hgone
      exact absurd ((hf.consistent.mem_children _ _).mpr hold) hgone
    · have hkind := hcase.resolve_right hself
      have hmem := (hputs.consistent.mem_children _ _).mpr hputs.parent_self
      have hstays := (List.mem_erase_of_ne hself).mpr hmem
      rw [hlist] at hstays
      exact absurd hstays (fragment_notMem hf hkind _)

/-- **The child-list operations**: an operation makes the change it states or throws and leaves
every list, if it does not put a fragment beside a reference or in the place of a child, and does
not replace a child by itself, unless its checks refuse the call; and in the forest of a document
only then.  No operation, whatever it is given, creates a cycle or makes the lists and the parents
disagree. -/
theorem child_list_operations {handlers : NodeHandlers ι} (hsilent : Silent handlers)
    (isFragment : ι → Bool) :
    (∀ (f : Forest ι) (this : ι) (call : NodeCall ι), f.Consistent →
      KeepsToItsWord isFragment f this call → MakesStatedChange handlers isFragment f this call) ∧
    (∀ (f : Forest ι) (this : ι) (call : NodeCall ι), DocumentForest isFragment f →
      (MakesStatedChange handlers isFragment f this call ↔ KeepsToItsWord isFragment f this call)) ∧
    ∀ (f : Forest ι) (this : ι) (call : NodeCall ι), f.Consistent →
      (after (call.run handlers isFragment this f)).Consistent :=
  ⟨fun _ _ _ hf hkeeps => makesStatedChange hsilent hf hkeeps,
    fun _ _ _ hf => ⟨keepsToItsWord hsilent hf, makesStatedChange hsilent hf.consistent⟩,
    fun _ this call hf => run_consistent hsilent hf isFragment this call⟩

/-! ## A root with a child beside a fragment with a child -/

/-- The node `1` is below the node `0`, and the node `3` below the fragment `2`. -/
def besideFragment : Forest (Fin 4) :=
  ((scattered.move 1 (.below 0) (· ++ [1])).move 3 (.below 2) (· ++ [3]))

theorem documentForest_besideFragment :
    DocumentForest (fun n => decide (n = 2)) besideFragment := by
  have hfirst : (scattered.move (1 : Fin 4) (.below 0) (· ++ [1])).Consistent := by
    refine consistent_scattered.move (List.perm_append_singleton 1) fun p hp => ?_
    rw [← Place.below.inj hp, isAbove_of_parent_eq_none rfl]
    decide
  refine ⟨hfirst.move (List.perm_append_singleton 3) fun p hp => ?_, fun n hn => ?_⟩
  · rw [← Place.below.inj hp, isAbove_of_parent_eq_none rfl]
    decide
  · obtain rfl := of_decide_eq_true hn
    rfl

/-- Handlers that do nothing. -/
def quiet : NodeHandlers (Fin 4) where
  raiseNodeChanging _ := pure ()
  raiseNodeChanged _ := pure ()

theorem silent_quiet : Silent quiet := ⟨fun _ _ => rfl, fun _ _ => rfl⟩

/-- Handlers of which one refuses that a node is removed. -/
def refusing : NodeHandlers (Fin 4) where
  raiseNodeChanging change :=
    if change.action = .remove then throw (.runtime (.invalidOperation "")) else pure ()
  raiseNodeChanged _ := pure ()

/-- The child of the root gives its place to the child of the fragment. -/
theorem child_list_operations_replace :
    MakesStatedChange quiet (fun n => decide (n = 2)) besideFragment 0 (.replaceChild 3 1) :=
  (child_list_operations silent_quiet fun n => decide (n = 2)).1 besideFragment 0
    (.replaceChild 3 1) documentForest_besideFragment.consistent
    fun h => absurd h (by decide)

/-- The fragment itself is put beside the child of the root, not its child; the child of the root
that replaces itself is gone; and a replacement whose removal is refused leaves both children. -/
theorem not_child_list_operations :
    ¬ MakesStatedChange quiet (fun n => decide (n = 2)) besideFragment 0
      (.insertBefore 2 (some 1)) ∧
    ¬ MakesStatedChange quiet (fun n => decide (n = 2)) besideFragment 0
      (.insertAfter 2 (some 1)) ∧
    ¬ MakesStatedChange quiet (fun n => decide (n = 2)) besideFragment 0 (.replaceChild 2 1) ∧
    ¬ MakesStatedChange quiet (fun n => decide (n = 2)) besideFragment 0 (.replaceChild 1 1) ∧
    ¬ MakesStatedChange refusing (fun n => decide (n = 2)) besideFragment 0
      (.replaceChild 3 1) := by
  have hallowed : ∀ n : Fin 4, n ≠ 0 → ¬ Refused besideFragment 0 n 1 := by
    rintro n hn (habove | hforeign)
    · rw [isAbove_of_parent_eq_none rfl] at habove
      exact hn habove
    · exact hforeign rfl
  have hdocument := documentForest_besideFragment
  have hkept := fun (call : NodeCall (Fin 4)) (h : MakesStatedChange quiet
    (fun n => decide (n = 2)) besideFragment 0 call) => keepsToItsWord silent_quiet hdocument h
  refine ⟨fun h => ?_, fun h => ?_, fun h => ?_, fun h => ?_, fun h => ?_⟩
  · exact hallowed 2 (by decide) (hkept _ h rfl)
  · exact hallowed 2 (by decide) (hkept _ h rfl)
  · exact hallowed 2 (by decide) (hkept _ h (Or.inl rfl))
  · exact hallowed 1 (by decide) (hkept _ h (Or.inr rfl))
  · exact absurd (h.2 0) (by decide)

end SharpRuntime.Analysis.DomChildLists
