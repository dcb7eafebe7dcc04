import SharpRuntime.Interface.JsonForest

/-!
# The ownership of JSON nodes

What a change of one slot does to the forest of a heap: a node is put into a container, is taken out
of one, or is released.  A reference that is about to be released is a worklist entry; the drain of
the worklist leaves a heap in which every node that is alive is held.
-/

set_option autoImplicit false

namespace SharpRuntime.Analysis.JsonOwnership

open Machine Model Interface.JsonForest
open JsonHeap
open Function

variable {ν : Type} {h h' : JsonHeap ν} {n m p : ℕ} {x : JsonNode ν}

@[ext] theorem heap_ext (hnodes : h.nodes = h'.nodes) (hnext : h.next = h'.next)
    (hhandles : h.handles = h'.handles) : h = h' := by
  cases h
  cases h'
  grind

theorem alive_iff : Alive h n ↔ ∃ x, h.nodes n = some x :=
  Option.isSome_iff_exists

theorem alive_of_eq (hn : h.nodes n = some x) : Alive h n :=
  Option.isSome_of_eq_some hn

theorem view_parent (hn : h.nodes n = some x) : (view h).parent n = x.parent_.map .below := by
  change (h.nodes n).bind _ = _
  rw [hn, Option.bind_some]

theorem view_children (hn : h.nodes n = some x) : (view h).children (.below n) = x.children := by
  change ((h.nodes n).map _).getD [] = _
  rw [hn]
  rfl

theorem isParent_iff : (view h).IsParent p n ↔ ∃ x, h.nodes n = some x ∧ x.parent_ = some p := by
  change (h.nodes n).bind _ = _ ↔ _
  rw [Option.bind_eq_some_iff]
  refine exists_congr fun x => and_congr_right fun _ => ?_
  simp

theorem mem_children_iff (hf : (view h).Consistent) :
    n ∈ (view h).children (.below p) ↔ (view h).IsParent p n :=
  hf.mem_children n (.below p)

theorem alive_of_mem_children (hmem : n ∈ (view h).children (.below p)) : Alive h p := by
  rw [alive_iff]
  change n ∈ ((h.nodes p).map _).getD [] at hmem
  cases hp : h.nodes p with
  | none =>
    rw [hp] at hmem
    cases hmem
  | some y => exact ⟨y, rfl⟩

theorem alive_of_isParent (hf : (view h).Consistent) (hparent : (view h).IsParent p n) :
    Alive h p ∧ Alive h n := by
  refine ⟨alive_of_mem_children ((mem_children_iff hf).mpr hparent), ?_⟩
  obtain ⟨x, hx, -⟩ := isParent_iff.mp hparent
  exact alive_of_eq hx

theorem alive_of_isAbove (hf : (view h).Consistent) (habove : (view h).IsAbove p n)
    (hn : Alive h n) : Alive h p := by
  induction habove with
  | refl => exact hn
  | tail _ hparent ih => exact ih (alive_of_isParent hf hparent).1

theorem above_subset (hf : (view h).Consistent) (hn : Alive h n) :
    {a | (view h).IsAbove a n} ⊆ (Finset.range h.next : Set ℕ) := by
  intro a ha
  rw [Finset.coe_range, Set.mem_Iio]
  by_contra hle
  have halive := alive_of_isAbove hf ha hn
  rw [Alive, h.nodes_eq_none a (by omega)] at halive
  cases halive

theorem finite_above (hf : (view h).Consistent) (hn : Alive h n) :
    {a | (view h).IsAbove a n}.Finite :=
  (Finset.range h.next).finite_toSet.subset (above_subset hf hn)

theorem ncard_above_le (hf : (view h).Consistent) (hn : Alive h n) :
    {a | (view h).IsAbove a n}.ncard ≤ h.next := by
  refine (Set.ncard_le_ncard (above_subset hf hn) (Finset.finite_toSet _)).trans_eq ?_
  rw [Set.ncard_coe_finset, Finset.card_range]

theorem ncard_above_pos (hf : (view h).Consistent) (hn : Alive h n) :
    0 < {a | (view h).IsAbove a n}.ncard :=
  (Set.ncard_pos (finite_above hf hn)).mpr ⟨n, Forest.IsAbove.refl _ n⟩

@[simp] theorem modifyNode_handles (g : JsonNode ν → JsonNode ν) :
    (h.modifyNode n g).handles = h.handles := rfl

theorem modifyNode_nodes (g : JsonNode ν → JsonNode ν) :
    (h.modifyNode n g).nodes = update h.nodes n ((h.nodes n).map g) := rfl

theorem modifyNode_at (g : JsonNode ν → JsonNode ν) :
    (h.modifyNode n g).nodes n = (h.nodes n).map g :=
  update_self ..

variable {g : JsonNode ν → JsonNode ν}

theorem modifyNode_self (hn : h.nodes n = some x) : (h.modifyNode n g).nodes n = some (g x) := by
  rw [modifyNode_at, hn]
  rfl

theorem modifyNode_of_ne (hne : m ≠ n) : (h.modifyNode n g).nodes m = h.nodes m :=
  update_of_ne hne ..

theorem alive_modifyNode_iff :
    Alive (h.modifyNode n g) m ↔ Alive h m := by grind [Alive, modifyNode_at, modifyNode_of_ne]

theorem modifyNode_comm {g' : JsonNode ν → JsonNode ν} (hne : n ≠ m) :
    (h.modifyNode n g).modifyNode m g' = (h.modifyNode m g').modifyNode n g := by
  refine heap_ext ?_ rfl rfl
  simp [modifyNode_nodes, update_of_ne hne.symm, update_of_ne hne,
    update_comm hne]

theorem modifyNode_modifyNode (g g' : JsonNode ν → JsonNode ν) :
    (h.modifyNode n g).modifyNode n g' = h.modifyNode n (g' ∘ g) := by
  refine heap_ext ?_ rfl rfl
  simp [modifyNode_nodes]

def setParent (n : ℕ) (parent : Option ℕ) (h : JsonHeap ν) : JsonHeap ν :=
  h.modifyNode n fun x => { x with parent_ := parent }

def setContent (n : ℕ) (content : JsonContent ν) (h : JsonHeap ν) : JsonHeap ν :=
  h.modifyNode n fun x => { x with content := content }

def refs (slots : List (Option ℕ)) : List ℕ := slots.filterMap id

variable {parent : Option ℕ}

theorem view_parent_setParent (hn : h.nodes n = some x) : (view (setParent n parent h)).parent =
      update (view h).parent n (parent.map .below) := by
  funext m
  by_cases hm : m = n
  · subst hm
    rw [update_self]
    exact view_parent (modifyNode_self hn)
  · rw [update_of_ne hm]
    change (Option.bind ((h.modifyNode n _).nodes m) _) = (h.nodes m).bind _
    rw [modifyNode_of_ne hm]

theorem view_children_setParent : (view (setParent n parent h)).children = (view h).children := by
  funext q
  cases q with
  | aside => rfl
  | below p =>
    by_cases hp : p = n
    · subst hp
      change (((h.modifyNode p _).nodes p).map _).getD [] = _
      rw [modifyNode_at, Option.map_map]
      rfl
    · change (((h.modifyNode n _).nodes p).map _).getD [] = _
      rw [modifyNode_of_ne hp]
      rfl

variable {content : JsonContent ν}

theorem view_parent_setContent : (view (setContent n content h)).parent = (view h).parent := by
  funext m
  by_cases hm : m = n
  · subst hm
    change ((h.modifyNode m _).nodes m).bind _ = (h.nodes m).bind _
    rw [modifyNode_at]
    cases h.nodes m <;> rfl
  · change ((h.modifyNode n _).nodes m).bind _ = (h.nodes m).bind _
    rw [modifyNode_of_ne hm]

theorem view_children_setContent (hn : h.nodes n = some x) :
    (view (setContent n content h)).children (.below n) = refs content.slots :=
  view_children (modifyNode_self hn)

theorem view_children_setContent_of_ne {q : Place ℕ}
    (hq : q ≠ .below n) : (view (setContent n content h)).children q = (view h).children q := by
  cases q with
  | aside => rfl
  | below p =>
    have hp : p ≠ n := fun hp => hq (hp ▸ rfl)
    change (((h.modifyNode n _).nodes p).map _).getD [] = ((h.nodes p).map _).getD []
    rw [modifyNode_of_ne hp]

/-- The heap is sound, but for references on a worklist, which hold nodes as handles do. -/
structure SoundWith (h : JsonHeap ν) (worklist : List ℕ) : Prop where
  consistent : (view h).Consistent
  handles_alive : ∀ n ∈ h.handles, Alive h n
  worklist_alive : ∀ n ∈ worklist, Alive h n
  held : ∀ n, Alive h n → n ∈ h.handles ∨ n ∈ worklist ∨ ∃ p, (view h).IsParent p n

theorem soundWith_nil_iff : SoundWith h [] ↔ Sound h := by
  refine ⟨fun hs => ⟨hs.consistent, hs.handles_alive, fun n hn => ?_⟩, fun hs =>
    ⟨hs.consistent, hs.handles_alive, fun n hn => absurd hn List.not_mem_nil, fun n hn => ?_⟩⟩
  · exact (hs.held n hn).imp_right fun hheld => hheld.resolve_left List.not_mem_nil
  · exact (hs.held n hn).imp_right Or.inr

variable {worklist : List ℕ} {y : JsonNode ν} {content : JsonContent ν}

theorem SoundWith.children_eq (hs : SoundWith h worklist) (hp : h.nodes p = some y) :
    n ∈ y.children ↔ (view h).IsParent p n := by
  rw [← view_children hp]
  exact mem_children_iff hs.consistent

theorem SoundWith.nodup (hs : SoundWith h worklist) (hp : h.nodes p = some y) :
    y.children.Nodup := by
  rw [← view_children hp]
  exact hs.consistent.nodup _

theorem SoundWith.attach (hs : SoundWith h worklist) (hn : h.nodes n = some x)
    (hroot : x.parent_ = none) (hp : h.nodes p = some y) (hnot : ¬(view h).IsAbove n p)
    (hperm : (refs content.slots).Perm (n :: y.children)) :
    SoundWith (setContent p content (setParent n (some p) h)) worklist := by
  have hne : p ≠ n := by
    rintro rfl
    exact hnot (Forest.IsAbove.refl _ _)
  have hp' : (setParent n (some p) h).nodes p = some y := (modifyNode_of_ne hne).trans hp
  have hparent : (view (setContent p content (setParent n (some p) h))).parent =
      update (view h).parent n (some (.below p)) := by
    rw [view_parent_setContent, view_parent_setParent hn]
    rfl
  have halive : ∀ m, Alive (setContent p content (setParent n (some p) h)) m ↔ Alive h m :=
    fun m => alive_modifyNode_iff.trans alive_modifyNode_iff
  refine ⟨?_, fun m hm => (halive m).mpr (hs.handles_alive m hm),
    fun m hm => (halive m).mpr (hs.worklist_alive m hm), fun m hm => ?_⟩
  · refine hs.consistent.attach ?_ hnot hparent ?_ fun q hq => ?_
    · rw [view_parent hn, hroot]
      rfl
    · rw [view_children_setContent hp', view_children hp]
      exact hperm
    · rw [view_children_setContent_of_ne hq, view_children_setParent]
  · refine (hs.held m ((halive m).mp hm)).imp_right fun hheld => hheld.imp_right ?_
    rintro ⟨q, hq⟩
    by_cases hmn : m = n
    · refine ⟨p, ?_⟩
      rw [Forest.IsParent, hparent, hmn, update_self]
    · refine ⟨q, ?_⟩
      rw [Forest.IsParent, hparent, update_of_ne hmn]
      exact hq

theorem SoundWith.detach (hs : SoundWith h worklist) (hp : h.nodes p = some y)
    (hmem : n ∈ y.children) (hperm : (refs content.slots).Perm (y.children.erase n)) :
    SoundWith (setContent p content (setParent n none h)) (n :: worklist) := by
  have hchild := (hs.children_eq hp).mp hmem
  have hne : p ≠ n := by
    rintro rfl
    exact hs.consistent.acyclic p (Relation.TransGen.single hchild)
  obtain ⟨x, hn, hx⟩ := isParent_iff.mp hchild
  have hp' : (setParent n none h).nodes p = some y := (modifyNode_of_ne hne).trans hp
  have hparent : ∀ m, (view (setContent p content (setParent n none h))).parent m =
      if m = n then none else (view h).parent m := fun m => by
    rw [view_parent_setContent, view_parent_setParent hn]
    exact update_apply ..
  have halive : ∀ m, Alive (setContent p content (setParent n none h)) m ↔ Alive h m :=
    fun m => alive_modifyNode_iff.trans alive_modifyNode_iff
  refine ⟨?_, fun m hm => (halive m).mpr (hs.handles_alive m hm), fun m hm => ?_, fun m hm => ?_⟩
  · refine hs.consistent.prune (· = n) hparent fun q => ?_
    by_cases hq : q = .below p
    · subst hq
      rw [view_children_setContent hp', view_children hp]
      refine hperm.trans (List.Perm.of_eq ?_)
      rw [(hs.nodup hp).erase_eq_filter]
      exact List.filter_congr fun m _ => by by_cases hm : m = n <;> simp [hm]
    · rw [view_children_setContent_of_ne hq, view_children_setParent]
      refine List.Perm.of_eq (List.filter_eq_self.mpr fun m hm => decide_eq_true ?_).symm
      rintro rfl
      have hstands := (hs.consistent.mem_children m q).mp hm
      exact hq (Option.some.inj (hstands.symm.trans hchild))
  · obtain rfl | hm := List.mem_cons.mp hm
    · exact (halive _).mpr (alive_of_eq hn)
    · exact (halive m).mpr (hs.worklist_alive m hm)
  · by_cases hmn : m = n
    · exact Or.inr (Or.inl (hmn ▸ List.mem_cons_self))
    · refine (hs.held m ((halive m).mp hm)).imp_right fun hheld =>
        hheld.imp (List.mem_cons_of_mem n) ?_
      rintro ⟨q, hq⟩
      refine ⟨q, ?_⟩
      rw [Forest.IsParent, hparent, if_neg hmn]
      exact hq

theorem SoundWith.reorder (hs : SoundWith h worklist) (hp : h.nodes p = some y)
    (hperm : (refs content.slots).Perm y.children) :
    SoundWith (setContent p content h) worklist := by
  have halive : ∀ m, Alive (setContent p content h) m ↔ Alive h m :=
    fun m => alive_modifyNode_iff
  refine ⟨hs.consistent.of_perm view_parent_setContent fun q => ?_,
    fun m hm => (halive m).mpr (hs.handles_alive m hm),
    fun m hm => (halive m).mpr (hs.worklist_alive m hm), fun m hm => ?_⟩
  · by_cases hq : q = .below p
    · subst hq
      rw [view_children_setContent hp, view_children hp]
      exact hperm
    · rw [view_children_setContent_of_ne hq]
  · refine (hs.held m ((halive m).mp hm)).imp_right fun hheld => hheld.imp_right ?_
    rintro ⟨q, hq⟩
    refine ⟨q, ?_⟩
    rw [Forest.IsParent, view_parent_setContent]
    exact hq

def detachedAll (ns : List ℕ) (h : JsonHeap ν) : JsonHeap ν :=
  ns.foldl (fun h n => setParent n none h) h

theorem detachedAll_nodes (ns : List ℕ) (h : JsonHeap ν) (m : ℕ) :
    (detachedAll ns h).nodes m =
      (h.nodes m).map fun x => if m ∈ ns then { x with parent_ := none } else x := by
  induction ns generalizing h with
  | nil =>
    cases hm : h.nodes m <;> simp [detachedAll, hm]
  | cons n ns ih =>
    change (detachedAll ns (setParent n none h)).nodes m = _
    rw [ih]
    by_cases hmn : m = n
    · subst hmn
      rw [setParent, modifyNode_at, Option.map_map]
      cases h.nodes m with
      | none => rfl
      | some x => by_cases hm : m ∈ ns <;> simp [hm]
    · simp [setParent, modifyNode_of_ne hmn, hmn]

theorem detachedAll_handles (ns : List ℕ) (h : JsonHeap ν) :
    (detachedAll ns h).handles = h.handles := by
  induction ns generalizing h with
  | nil => rfl
  | cons n ns ih => exact ih _

theorem SoundWith.clear (hs : SoundWith h worklist) (hp : h.nodes p = some y)
    (hempty : content.slots = []) :
    SoundWith (setContent p content (detachedAll y.children h)) (y.children ++ worklist) := by
  classical
  have hchild : ∀ m, m ∈ y.children ↔ (view h).IsParent p m := fun m => hs.children_eq hp
  have hp' : (detachedAll y.children h).nodes p = some y := by
    have hnot : p ∉ y.children := fun hmem =>
      hs.consistent.acyclic p (Relation.TransGen.single ((hchild p).mp hmem))
    rw [detachedAll_nodes, hp]
    exact congrArg some (if_neg hnot)
  have hparent : ∀ m, (view (setContent p content (detachedAll y.children h))).parent m =
      if (view h).IsParent p m then none else (view h).parent m := fun m => by
    rw [view_parent_setContent]
    change ((detachedAll y.children h).nodes m).bind _ = if _ then _ else (h.nodes m).bind _
    rw [detachedAll_nodes]
    cases h.nodes m with
    | none => exact (ite_self none).symm
    | some x => grind
  have hchildren : ∀ q, (view (detachedAll y.children h)).children q = (view h).children q := by
    intro q
    cases q with
    | aside => rfl
    | below r =>
      change (((detachedAll y.children h).nodes r).map _).getD [] = ((h.nodes r).map _).getD []
      rw [detachedAll_nodes, Option.map_map]
      congr 2
      funext x
      split <;> rfl
  have halive : ∀ m, Alive (setContent p content (detachedAll y.children h)) m ↔ Alive h m :=
    fun m => alive_modifyNode_iff.trans (by
      rw [Alive, Alive, detachedAll_nodes, Option.isSome_map])
  have hhandles : (setContent p content (detachedAll y.children h)).handles = h.handles :=
    detachedAll_handles ..
  refine ⟨hs.consistent.prune ((view h).IsParent p ·) hparent fun q => ?_, fun m hm => ?_,
    fun m hm => ?_, fun m hm => ?_⟩
  · by_cases hq : q = .below p
    · subst hq
      rw [view_children_setContent hp', hempty]
      refine List.Perm.of_eq (List.filter_eq_nil_iff.mpr fun m hm => ?_).symm
      simpa using (mem_children_iff hs.consistent).mp hm
    · rw [view_children_setContent_of_ne hq, hchildren]
      refine List.Perm.of_eq (List.filter_eq_self.mpr fun m hm => decide_eq_true ?_).symm
      intro hpm
      have hstands := (hs.consistent.mem_children m q).mp hm
      exact hq (Option.some.inj (hstands.symm.trans hpm))
  · rw [hhandles] at hm
    exact (halive m).mpr (hs.handles_alive m hm)
  · refine (halive m).mpr ?_
    obtain hm | hm := List.mem_append.mp hm
    · exact (alive_of_isParent hs.consistent ((hchild m).mp hm)).2
    · exact hs.worklist_alive m hm
  · rw [hhandles]
    obtain hheld | hheld | ⟨q, hq⟩ := hs.held m ((halive m).mp hm)
    · exact Or.inl hheld
    · exact Or.inr (Or.inl (List.mem_append_right _ hheld))
    · by_cases hpm : (view h).IsParent p m
      · exact Or.inr (Or.inl (List.mem_append_left _ ((hchild m).mpr hpm)))
      · refine Or.inr (Or.inr ⟨q, ?_⟩)
        rw [Forest.IsParent, hparent, if_neg hpm]
        exact hq

theorem isReferenced_iff (hf : (view h).Consistent) :
    h.isReferenced n = true ↔ n ∈ h.handles ∨ ∃ p, (view h).IsParent p n := by
  rw [JsonHeap.isReferenced, Bool.or_eq_true, decide_eq_true_iff]
  refine or_congr Iff.rfl ⟨fun hany => ?_, fun ⟨p, hp⟩ => ?_⟩
  · obtain ⟨p, -, hp⟩ := List.any_eq_true.mp hany
    cases hy : h.nodes p with
    | none =>
      rw [hy] at hp
      cases hp
    | some y =>
      rw [hy] at hp
      refine ⟨p, (mem_children_iff hf).mp ?_⟩
      rw [view_children hy]
      exact of_decide_eq_true hp
  · obtain ⟨y, hy⟩ := alive_iff.mp (alive_of_isParent hf hp).1
    refine List.any_eq_true.mpr ⟨p, List.mem_range.mpr ?_, ?_⟩
    · by_contra hle
      rw [h.nodes_eq_none p (by omega)] at hy
      cases hy
    · rw [hy]
      refine decide_eq_true ?_
      rw [← view_children hy]
      exact (mem_children_iff hf).mpr hp

/-- A node that nothing owns is freed; its children are left to free. -/
theorem SoundWith.destroy (hs : SoundWith h (n :: worklist)) (hn : h.nodes n = some x)
    (hfree : h.isReferenced n = false) (hnotMem : n ∉ worklist) :
    SoundWith (h.destroy n x) (x.children ++ worklist) := by
  classical
  have hunheld : ¬(n ∈ h.handles ∨ ∃ p, (view h).IsParent p n) := by
    rw [← isReferenced_iff hs.consistent, hfree]
    exact Bool.false_ne_true
  obtain ⟨hnoHandle, hnoParent⟩ := not_or.mp hunheld
  have hchild : ∀ m, m ∈ x.children ↔ (view h).IsParent n m := fun m => hs.children_eq hn
  have hself : n ∉ x.children := fun hmem => hnoParent ⟨n, (hchild n).mp hmem⟩
  have hnodes : ∀ m, m ≠ n → (h.destroy n x).nodes m = (h.nodes m).map fun y =>
      if m ∈ x.children ∧ y.parent_ = some n then { y with parent_ := none } else y :=
    fun m hm => if_neg hm
  have hgone : (h.destroy n x).nodes n = none := if_pos rfl
  have hparent : ∀ m, (view (h.destroy n x)).parent m =
      if (view h).IsParent n m then none else (view h).parent m := fun m => by
    by_cases hm : m = n
    · subst hm
      rw [if_neg fun hp => hnoParent ⟨m, hp⟩]
      change ((h.destroy m x).nodes m).bind _ = _
      rw [hgone]
      cases hplace : (view h).parent m with
      | none => rfl
      | some q =>
        cases q with
        | below p => exact absurd ⟨p, hplace⟩ hnoParent
        | aside =>
          have hmem := (hs.consistent.mem_children m .aside).mpr hplace
          cases hmem
    · change ((h.destroy n x).nodes m).bind _ = if _ then _ else (h.nodes m).bind _
      by_cases hpm : (view h).IsParent n m
      · obtain ⟨y, hy, hyp⟩ := isParent_iff.mp hpm
        grind
      · grind
  have hchildren : ∀ p, p ≠ n →
      (view (h.destroy n x)).children (.below p) = (view h).children (.below p) := fun p hp => by
    change (((h.destroy n x).nodes p).map _).getD [] = ((h.nodes p).map _).getD []
    rw [hnodes p hp, Option.map_map]
    congr 2
    funext y
    change JsonNode.children (if _ then _ else _) = _
    split <;> rfl
  have halive : ∀ m, m ≠ n → (Alive (h.destroy n x) m ↔ Alive h m) := fun m hm => by
    rw [Alive, Alive, hnodes m hm, Option.isSome_map]
  refine ⟨hs.consistent.prune ((view h).IsParent n ·) hparent fun q => ?_, fun m hm => ?_,
    fun m hm => ?_, fun m hm => ?_⟩
  · cases q with
    | aside => exact List.Perm.refl _
    | below p =>
      by_cases hp : p = n
      · subst hp
        have hnil : (view (h.destroy p x)).children (.below p) = [] := by
          change (((h.destroy p x).nodes p).map _).getD [] = []
          rw [hgone]
          rfl
        rw [hnil]
        refine List.Perm.of_eq (List.filter_eq_nil_iff.mpr fun m hm => ?_).symm
        simpa using (mem_children_iff hs.consistent).mp hm
      · rw [hchildren p hp]
        refine List.Perm.of_eq (List.filter_eq_self.mpr fun m hm => decide_eq_true ?_).symm
        intro hnm
        have hstands := (mem_children_iff hs.consistent).mp hm
        exact hp (Place.below.inj (Option.some.inj (hstands.symm.trans hnm)))
  · have hmn : m ≠ n := by
      rintro rfl
      exact hnoHandle hm
    exact (halive m hmn).mpr (hs.handles_alive m hm)
  · obtain hm | hm := List.mem_append.mp hm
    · have hmn : m ≠ n := by
        rintro rfl
        exact hself hm
      exact (halive m hmn).mpr (alive_of_isParent hs.consistent ((hchild m).mp hm)).2
    · have hmn : m ≠ n := by
        rintro rfl
        exact hnotMem hm
      exact (halive m hmn).mpr (hs.worklist_alive m (List.mem_cons_of_mem n hm))
  · have hmn : m ≠ n := by
      rintro rfl
      rw [Alive, hgone] at hm
      cases hm
    obtain hheld | hheld | ⟨q, hq⟩ := hs.held m ((halive m hmn).mp hm)
    · exact Or.inl hheld
    · exact Or.inr (Or.inl (List.mem_append_right _ ((List.mem_cons.mp hheld).resolve_left hmn)))
    · by_cases hpm : (view h).IsParent n m
      · exact Or.inr (Or.inl (List.mem_append_left _ ((hchild m).mpr hpm)))
      · refine Or.inr (Or.inr ⟨q, ?_⟩)
        rw [Forest.IsParent, hparent, if_neg hpm]
        exact hq

theorem SoundWith.skip (hs : SoundWith h (n :: worklist))
    (hother : h.isReferenced n = true ∨ n ∈ worklist) : SoundWith h worklist := by
  refine ⟨hs.consistent, hs.handles_alive,
    fun m hm => hs.worklist_alive m (List.mem_cons_of_mem n hm), fun m hm => ?_⟩
  obtain hheld | hheld | hheld := hs.held m hm
  · exact Or.inl hheld
  · obtain rfl | hheld := List.mem_cons.mp hheld
    · obtain href | hmem := hother
      · exact (isReferenced_iff hs.consistent).mp href |>.imp_right Or.inr
      · exact Or.inr (Or.inl hmem)
    · exact Or.inr (Or.inl hheld)
  · exact Or.inr (Or.inr hheld)

def ClosedFrom (base : ℕ) (h : JsonHeap ν) : Prop :=
  ∀ p x, base ≤ p → h.nodes p = some x → ∀ n ∈ x.children, base ≤ n

theorem drain_sound (base : ℕ) (h : JsonHeap ν) (worklist : List ℕ)
    (hs : SoundWith h worklist) :
    ∃ h', h.drain worklist = some h' ∧ Sound h' ∧ h'.next = h.next ∧ h'.handles = h.handles ∧
      (ClosedFrom base h → (∀ n ∈ worklist, base ≤ n) → ∀ m < base, h'.nodes m = h.nodes m) := by
  induction h, worklist using JsonHeap.drain.induct with
  | case1 h =>
    exact ⟨h, by rw [JsonHeap.drain], soundWith_nil_iff.mp hs, rfl, rfl, fun _ _ _ _ => rfl⟩
  | case2 h n worklist hother ih =>
    have hother' : h.isReferenced n = true ∨ n ∈ worklist := by simpa using hother
    obtain ⟨h', hdrain, hsound, hnext, hhandles, hframe⟩ := ih (hs.skip hother')
    refine ⟨h', ?_, hsound, hnext, hhandles, fun hclosed hbase =>
      hframe hclosed fun m hm => hbase m (List.mem_cons_of_mem n hm)⟩
    rw [JsonHeap.drain, if_pos hother]
    exact hdrain
  | case3 h n worklist hother hlive ih =>
    obtain ⟨hfree, hnotMem⟩ : h.isReferenced n = false ∧ n ∉ worklist := by simpa using hother
    have hn : h.nodes n = some ((h.nodes n).get hlive) := (Option.some_get hlive).symm
    obtain ⟨h', hdrain, hsound, hnext, hhandles, hframe⟩ :=
      ih (hs.destroy hn hfree hnotMem)
    refine ⟨h', ?_, hsound, hnext, hhandles, fun hclosed hbase m hm => ?_⟩
    · grind [JsonHeap.drain]
    · have hnbase := hbase n List.mem_cons_self
      rw [hframe ?_ ?_ m hm]
      · change (if m = n then none else _) = _
        rw [if_neg (by omega)]
        have hnot : m ∉ ((h.nodes n).get hlive).children := fun hmem => by
          have hge := hclosed n _ hnbase hn m hmem
          omega
        cases h.nodes m with
        | none => rfl
        | some y => exact congrArg some (if_neg fun hboth => hnot hboth.1)
      · intro p y hp hy k hk
        change (if p = n then none else _) = _ at hy
        split at hy
        · cases hy
        · obtain ⟨z, hz, rfl⟩ := Option.map_eq_some_iff.mp hy
          refine hclosed p z hp hz k ?_
          split at hk <;> exact hk
      · intro k hk
        obtain hk | hk := List.mem_append.mp hk
        · exact hclosed n _ hnbase hn k hk
        · exact hbase k (List.mem_cons_of_mem n hk)
  | case4 h n worklist hother hlive =>
    exact absurd (hs.worklist_alive n List.mem_cons_self) hlive

end SharpRuntime.Analysis.JsonOwnership
