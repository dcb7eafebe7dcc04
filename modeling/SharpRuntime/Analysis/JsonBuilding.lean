import SharpRuntime.Analysis.JsonOwnership

/-!
# Building JSON trees

What the members that assign a parent do, and how a tree is built: a container is made, and each
child is built and then appended.  A tree that is built touches no node there has been before; one
that is given up is released, and nothing of it is left.
-/

set_option autoImplicit false

namespace SharpRuntime.Analysis.JsonBuilding

open Machine Model Interface.JsonForest JsonOwnership
open JsonNode

variable {ν : Type} {h h' h₀ : JsonHeap ν} {n p : ℕ} {x y : JsonNode ν}

theorem deref_eq (hn : h.nodes n = some x) : deref n h = .ok x h := by
  rw [deref, get_bind, hn]
  rfl

/-! ## The way up -/

/-- By induction on the fuel: along the way up the nodes above become fewer. -/
theorem rootFrom_eq (hf : (view h).Consistent) (fuel : ℕ) (hn : Alive h n)
    (hfuel : {a | (view h).IsAbove a n}.ncard ≤ fuel) :
    ∃ r, rootFrom fuel n h = .ok r h ∧ (view h).IsAbove r n ∧ ∀ p, ¬(view h).IsParent p r := by
  induction fuel generalizing n with
  | zero =>
    have hpos := ncard_above_pos hf hn
    omega
  | succ fuel ih =>
    obtain ⟨x, hx⟩ := alive_iff.mp hn
    rw [rootFrom, bind_ok (deref_eq hx)]
    cases hparent : x.parent_ with
    | none =>
      refine ⟨n, rfl, Forest.IsAbove.refl _ n, fun p hp => ?_⟩
      obtain ⟨x', hx', hxp⟩ := isParent_iff.mp hp
      rw [hx] at hx'
      cases hx'
      rw [hparent] at hxp
      cases hxp
    | some p =>
      have hp : (view h).IsParent p n := isParent_iff.mpr ⟨x, hx, hparent⟩
      have hlt := hf.ncard_above_lt_of_finite hp (finite_above hf hn)
      obtain ⟨r, hroot, habove, htop⟩ := ih (alive_of_isParent hf hp).1 (by omega)
      exact ⟨r, hroot, habove.tail hp, htop⟩

theorem mem_wayUp_iff {a : ℕ} (hf : (view h).Consistent) (fuel : ℕ) (hn : Alive h n)
    (hfuel : {a | (view h).IsAbove a n}.ncard ≤ fuel) :
    a ∈ wayUp h fuel n ↔ (view h).IsAbove a n := by
  induction fuel generalizing n with
  | zero =>
    have hpos := ncard_above_pos hf hn
    omega
  | succ fuel ih =>
    obtain ⟨x, hx⟩ := alive_iff.mp hn
    rw [wayUp, hx, Option.bind_some, List.mem_cons]
    cases hparent : x.parent_ with
    | none =>
      rw [Forest.isAbove_of_parent_eq_none (by rw [view_parent hx, hparent]; rfl)]
      exact or_iff_left List.not_mem_nil
    | some p =>
      have hp : (view h).IsParent p n := isParent_iff.mpr ⟨x, hx, hparent⟩
      have hlt := hf.ncard_above_lt_of_finite hp (finite_above hf hn)
      rw [Forest.isAbove_of_parent hp]
      exact or_congr Iff.rfl (ih (alive_of_isParent hf hp).1 (by omega))

theorem refuseCycle_eq (hf : (view h).Consistent) (this fuel : ℕ) (hn : Alive h n)
    (hfuel : {a | (view h).IsAbove a n}.ncard ≤ fuel) :
    ((view h).IsAbove this n → refuseCycle this fuel (some n) h = .error cycleDetected h) ∧
      (¬(view h).IsAbove this n → refuseCycle this fuel (some n) h = .ok ⟨⟩ h) := by
  induction fuel generalizing n with
  | zero =>
    have hpos := ncard_above_pos hf hn
    omega
  | succ fuel ih =>
    obtain ⟨x, hx⟩ := alive_iff.mp hn
    rw [refuseCycle]
    by_cases hthis : n = this
    · rw [if_pos hthis]
      exact ⟨fun _ => rfl, fun hnot => absurd (hthis ▸ Forest.IsAbove.refl _ n) hnot⟩
    · rw [if_neg hthis, bind_ok (deref_eq hx)]
      cases hparent : x.parent_ with
      | none =>
        have habove : (view h).IsAbove this n ↔ this = n :=
          Forest.isAbove_of_parent_eq_none (by rw [view_parent hx, hparent]; rfl)
        rw [refuseCycle]
        exact ⟨fun h' => absurd (habove.mp h').symm hthis, fun _ => rfl⟩
      | some p =>
        have hp : (view h).IsParent p n := isParent_iff.mpr ⟨x, hx, hparent⟩
        have hlt := hf.ncard_above_lt_of_finite hp (finite_above hf hn)
        have habove : (view h).IsAbove this n ↔ (view h).IsAbove this p :=
          (Forest.isAbove_of_parent hp).trans (or_iff_right fun h' => hthis h'.symm)
        rw [habove]
        exact ih (alive_of_isParent hf hp).1 (by omega)

/-! ## Assigning a parent -/

theorem seesCycle_iff (hf : (view h).Consistent) (hn : h.nodes n = some x) (hp : Alive h p) :
    SeesCycle h n p ↔
      (x.parent_ = none → n ≠ p → (view h).IsAbove n p → x.hasChildren = true) := by
  have hup : n ∈ wayUp h h.next p ↔ (view h).IsAbove n p :=
    mem_wayUp_iff hf h.next hp (ncard_above_le hf hp)
  simp [SeesCycle, hn, hup]

theorem assignParent_ok (hf : (view h).Consistent) (hn : h.nodes n = some x) (hp : Alive h p)
    (hroot : x.parent_ = none) (hnot : ¬(view h).IsAbove n p) :
    assignParent n p h = .ok ⟨⟩ (setParent n (some p) h) := by
  have hne : p ≠ n := by
    rintro rfl
    exact hnot (Forest.IsAbove.refl _ _)
  have hwalk := (refuseCycle_eq hf n h.next hp (ncard_above_le hf hp)).2 hnot
  have hparentless : ¬x.parent_.isSome = true := by
    rw [hroot]
    exact Bool.false_ne_true
  rw [assignParent, bind_ok (deref_eq hn), if_neg hparentless, if_neg hne]
  cases hchildren : x.hasChildren with
  | false => rfl
  | true =>
    rw [if_pos rfl, get_bind, bind_ok hwalk]
    rfl

theorem thrown_runtime (e : Exception) : Thrown (.runtime e) := ⟨nofun, nofun⟩

theorem assignParent_error (hf : (view h).Consistent) (hn : h.nodes n = some x) (hp : Alive h p)
    (hsees : SeesCycle h n p) (hbad : x.parent_.isSome ∨ (view h).IsAbove n p) :
    ∃ e, Thrown e ∧ assignParent n p h = .error e h := by
  rw [assignParent, bind_ok (deref_eq hn)]
  by_cases hparent : x.parent_.isSome = true
  · rw [if_pos hparent]
    exact ⟨_, thrown_runtime _, rfl⟩
  rw [if_neg hparent]
  by_cases hself : p = n
  · rw [if_pos hself]
    exact ⟨_, thrown_runtime _, rfl⟩
  rw [if_neg hself]
  have habove := hbad.resolve_left hparent
  have hchildren := (seesCycle_iff hf hn hp).mp hsees
    (Option.not_isSome_iff_eq_none.mp hparent) (Ne.symm hself) habove
  have hwalk := (refuseCycle_eq hf n h.next hp (ncard_above_le hf hp)).1 habove
  rw [hchildren, if_pos rfl, get_bind, bind_error hwalk]
  exact ⟨_, thrown_runtime _, rfl⟩

/-! ## Appending a child -/

/-- The container has a further slot; a child in it names the container as its parent. -/
def attachSlot (node : ℕ) (content : JsonContent ν) (slot : Option ℕ) (h : JsonHeap ν) :
    JsonHeap ν :=
  match slot with
  | none => setContent node content h
  | some c => setContent node content (setParent c (some node) h)

def pushed (key : List UInt8) (slot : Option ℕ) : JsonContent ν → JsonContent ν
  | .value v => .value v
  | .array items => .array (items ++ [slot])
  | .object properties => .object (properties ++ [(key, slot)])

def IsContainer (isObject : Bool) : JsonContent ν → Prop
  | .value _ => False
  | .array _ => isObject = false
  | .object _ => isObject = true

variable {isObject : Bool} {content : JsonContent ν}

variable (key : List UInt8) (caseInsensitive : Bool) (j : OrderedJson ν)

theorem isContainer_pushed (slot : Option ℕ) (hkind : IsContainer isObject content) :
    IsContainer isObject (pushed key slot content) := by
  cases content <;> exact hkind

theorem refs_slots_pushed (slot : Option ℕ) (hkind : IsContainer isObject content) :
    refs (pushed key slot content).slots = refs content.slots ++ slot.toList := by
  cases content with
  | value v => exact absurd hkind id
  | array items =>
    change (items ++ [slot]).filterMap id = _
    rw [List.filterMap_append]
    cases slot <;> rfl
  | object properties =>
    change ((properties ++ [(key, slot)]).map Prod.snd).filterMap id = _
    rw [List.map_append, List.filterMap_append]
    cases slot <;> rfl

variable {child : Option ℕ}

theorem adopt_eq (hchild : ∀ c ∈ child, assignParent c p h = .ok ⟨⟩ (setParent c (some p) h)) :
    ∃ h', adopt p child h = .ok ⟨⟩ h' ∧
      ∀ content, setContent p content h' = attachSlot p content child h := by
  cases child with
  | none => exact ⟨h, rfl, fun _ => rfl⟩
  | some c => exact ⟨_, hchild c rfl, fun _ => rfl⟩

theorem items_eq {items : List (Option ℕ)} (hp : h.nodes p = some y)
    (hcontent : y.content = .array items) : JsonArray.items_ p h = .ok items h := by
  rw [JsonArray.items_, bind_ok (deref_eq hp), hcontent]
  rfl

theorem properties_eq {properties : List (List UInt8 × Option ℕ)} (hp : h.nodes p = some y)
    (hcontent : y.content = .object properties) :
    JsonObject.properties_ p h = .ok properties h := by
  rw [JsonObject.properties_, bind_ok (deref_eq hp), hcontent]
  rfl

theorem append_array (p : ℕ) (key : List UInt8) (child : Option ℕ) :
    (append false p key child : JsonProgram ν Unit) =
      JsonArray.add p child >>= fun _ =>
        modify fun h => { h with handles := h.handles.diff child.toList } := rfl

theorem append_object (p : ℕ) (key : List UInt8) (child : Option ℕ) :
    (append true p key child : JsonProgram ν Unit) =
      JsonObject.add p key child >>= fun _ =>
        modify fun h => { h with handles := h.handles.diff child.toList } := rfl

theorem append_cases (hp : h.nodes p = some y) (hkind : IsContainer isObject y.content)
    (hchild : ∀ c ∈ child, assignParent c p h = .ok ⟨⟩ (setParent c (some p) h)) :
    (∃ e, Thrown e ∧ append isObject p key child h = .error e h) ∨
      append isObject p key child h = .ok ⟨⟩
        { attachSlot p (pushed key child y.content) child h with
          handles := h.handles.diff child.toList } := by
  obtain ⟨h', hadopt, hset⟩ := adopt_eq hchild
  have hhandles : ∀ content, (attachSlot p content child h).handles = h.handles := fun content => by
    cases child <;> rfl
  cases hcontent : y.content with
  | value v =>
    rw [hcontent] at hkind
    exact absurd hkind id
  | array items =>
    rw [hcontent] at hkind
    obtain rfl : isObject = false := hkind
    have hadd : JsonArray.add p child h =
        .ok ⟨⟩ (attachSlot p (.array (items ++ [child])) child h) := by
      rw [JsonArray.add, bind_ok (items_eq hp hcontent), bind_ok hadopt, ← hset]
      rfl
    right
    rw [append_array, bind_ok hadd, modify_apply, hhandles]
    rfl
  | object properties =>
    rw [hcontent] at hkind
    obtain rfl : isObject = true := hkind
    rw [append_object]
    by_cases hfound : 0 ≤ JsonObject.findIndex y.caseInsensitive properties key
    · have hadd : ∃ e, Thrown e ∧ JsonObject.add p key child h = .error e h := by
        rw [JsonObject.add, bind_ok (properties_eq hp hcontent), bind_ok (deref_eq hp),
          if_pos hfound]
        exact ⟨_, thrown_runtime _, rfl⟩
      obtain ⟨e, hthrown, hadd⟩ := hadd
      exact Or.inl ⟨e, hthrown, bind_error hadd⟩
    · have hadd : JsonObject.add p key child h =
          .ok ⟨⟩ (attachSlot p (.object (properties ++ [(key, child)])) child h) := by
        rw [JsonObject.add, bind_ok (properties_eq hp hcontent), bind_ok (deref_eq hp),
          if_neg hfound, bind_ok hadopt, ← hset]
        rfl
      right
      rw [bind_ok hadd, modify_apply, hhandles]
      rfl

variable {worklist : List ℕ}

theorem attachSlot_sound (hs : SoundWith h worklist) (hp : h.nodes p = some y)
    (hchild : ∀ c ∈ child, ∃ x, h.nodes c = some x ∧ x.parent_ = none ∧ ¬(view h).IsAbove c p)
    (hperm : (refs content.slots).Perm (child.toList ++ y.children)) :
    SoundWith (attachSlot p content child h) worklist := by
  cases child with
  | none => exact hs.reorder hp hperm
  | some c =>
    obtain ⟨x, hc, hroot, hnot⟩ := hchild c rfl
    exact hs.attach hc hroot hp hnot hperm

theorem dropHeld_sound (hs : SoundWith h worklist) (hheld : ∃ p, (view h).IsParent p n) :
    SoundWith { h with handles := h.handles.erase n } worklist := by
  refine ⟨hs.consistent, fun m hm => hs.handles_alive m (List.mem_of_mem_erase hm),
    hs.worklist_alive, fun m hm => ?_⟩
  by_cases hmn : m = n
  · subst hmn
    exact Or.inr (Or.inr hheld)
  · exact (hs.held m hm).imp_left (List.mem_erase_of_ne hmn).mpr

theorem appended_sound (hs : SoundWith h worklist) (hp : h.nodes p = some y)
    (hchild : ∀ c ∈ child, ∃ x, h.nodes c = some x ∧ x.parent_ = none ∧ ¬(view h).IsAbove c p)
    (hperm : (refs content.slots).Perm (child.toList ++ y.children)) :
    SoundWith { attachSlot p content child h with
      handles := h.handles.diff child.toList } worklist := by
  have hattached := attachSlot_sound hs hp hchild hperm
  cases child with
  | none => exact hattached
  | some c =>
    obtain ⟨x, hc, -, -⟩ := hchild c rfl
    have herase : h.handles.diff (some c).toList = h.handles.erase c := by
      rw [Option.toList_some, List.diff_cons, List.diff_nil]
    rw [herase]
    refine dropHeld_sound hattached ⟨p, ?_⟩
    change (view (setContent p content (setParent c (some p) h))).parent c = _
    rw [view_parent_setContent, view_parent_setParent hc, Function.update_self]
    rfl

/-! ## Trees that are built -/

/-- The nodes there have been are as they were, and so are the handles below those of the call. -/
structure Extends (h : JsonHeap ν) (own : List ℕ) (h' : JsonHeap ν) : Prop where
  sound : Sound h'
  next_le : h.next ≤ h'.next
  frame : ∀ m < h.next, h'.nodes m = h.nodes m
  handles : h'.handles = own ++ h.handles
  fresh : ∀ n ∈ own, h.next ≤ n

def Parentless (slot : Option ℕ) (h : JsonHeap ν) : Prop :=
  ∀ n ∈ slot, ∃ x, h.nodes n = some x ∧ x.parent_ = none

/-- The program builds a tree that the call holds, or throws, and holds what it has built. -/
def Builds (h₀ : JsonHeap ν) (build : JsonProgram ν (Option ℕ)) : Prop :=
  ∀ h, Sound h → h₀.next ≤ h.next → (∀ m < h₀.next, h.nodes m = h₀.nodes m) →
    match build h with
    | .ok slot h' => Extends h slot.toList h' ∧ Parentless slot h'
    | .error e h' => Thrown e ∧ ∃ own, Extends h own h'

/-- A container that is being filled. -/
structure Filling (isObject : Bool) (node : ℕ) (h h' : JsonHeap ν) (own : List ℕ) : Prop where
  sound : Sound h'
  next_le : h.next ≤ h'.next
  frame : ∀ m < h.next, m ≠ node → h'.nodes m = h.nodes m
  handles : h'.handles = own ++ h.handles
  fresh : ∀ n ∈ own, h.next ≤ n
  container : ∃ y, h'.nodes node = some y ∧ y.parent_ = none ∧ IsContainer isObject y.content

theorem attachSlot_nodes_of_ne {m : ℕ} (hmp : m ≠ p)
    (hmc : ∀ c ∈ child, m ≠ c) : (attachSlot p content child h).nodes m = h.nodes m := by
  cases child with
  | none => exact modifyNode_of_ne hmp
  | some c => exact (modifyNode_of_ne hmp).trans (modifyNode_of_ne (hmc c rfl))

theorem attachSlot_nodes_self (hp : h.nodes p = some y) (hpc : ∀ c ∈ child, p ≠ c) :
    (attachSlot p content child h).nodes p = some { y with content := content } := by
  cases child with
  | none => exact modifyNode_self hp
  | some c => exact modifyNode_self ((modifyNode_of_ne (hpc c rfl)).trans hp)

theorem attachSlot_next : (attachSlot p content child h).next = h.next := by
  cases child <;> rfl

theorem filling_append {h₁ : JsonHeap ν}
    (hnode : p < h.next) (hp : h.nodes p = some y) (hroot : y.parent_ = none)
    (hkind : IsContainer isObject y.content) (hbuilt : Extends h child.toList h₁)
    (hfree : Parentless child h₁) :
    match append isObject p key child h₁ with
    | .ok _ h' => Filling isObject p h h' []
    | .error e h' => Thrown e ∧ Filling isObject p h h' child.toList := by
  have hs : SoundWith h₁ [] := soundWith_nil_iff.mpr hbuilt.sound
  have hp₁ : h₁.nodes p = some y := (hbuilt.frame p hnode).trans hp
  have hfresh : ∀ c ∈ child, h.next ≤ c := fun c hc =>
    hbuilt.fresh c (Option.mem_toList.mpr hc)
  have hnot : ∀ c ∈ child, ¬(view h₁).IsAbove c p := fun c hc habove => by
    have hcp : c = p := (Forest.isAbove_of_parent_eq_none
      (by rw [view_parent hp₁, hroot]; rfl)).mp habove
    have hle := hfresh c hc
    omega
  have hchild : ∀ c ∈ child, ∃ x, h₁.nodes c = some x ∧ x.parent_ = none ∧
      ¬(view h₁).IsAbove c p := fun c hc => by
    obtain ⟨x, hx, hxroot⟩ := hfree c hc
    exact ⟨x, hx, hxroot, hnot c hc⟩
  have hassign : ∀ c ∈ child, assignParent c p h₁ = .ok ⟨⟩ (setParent c (some p) h₁) :=
    fun c hc => by
      obtain ⟨x, hx, hxroot, hxnot⟩ := hchild c hc
      exact assignParent_ok hs.consistent hx (alive_of_eq hp₁) hxroot hxnot
  have hperm : (refs (pushed key child y.content).slots).Perm (child.toList ++ y.children) := by
    rw [refs_slots_pushed key child hkind]
    exact List.perm_append_comm
  have hpc : ∀ c ∈ child, p ≠ c := fun c hc => by
    have hle := hfresh c hc
    omega
  obtain ⟨e, hthrown, happend⟩ | happend := append_cases key hp₁ hkind hassign
  · rw [happend]
    exact ⟨hthrown, hbuilt.sound, hbuilt.next_le, fun m hm _ => hbuilt.frame m hm,
      hbuilt.handles, hbuilt.fresh, y, hp₁, hroot, hkind⟩
  · rw [happend]
    refine ⟨soundWith_nil_iff.mp (appended_sound hs hp₁ hchild hperm), ?_, fun m hm hmp => ?_, ?_,
      fun n hn => absurd hn List.not_mem_nil,
      _, attachSlot_nodes_self hp₁ hpc, hroot, isContainer_pushed key child hkind⟩
    · rw [attachSlot_next]
      exact hbuilt.next_le
    · refine (attachSlot_nodes_of_ne hmp fun c hc => ?_).trans (hbuilt.frame m hm)
      have hle := hfresh c hc
      omega
    · rw [hbuilt.handles]
      cases child with
      | none => rfl
      | some c =>
        simp

variable {entries : List (List UInt8 × JsonProgram ν (Option ℕ))}

/-- By induction on the children that are left. -/
theorem fill_spec (hbuilds : ∀ entry ∈ entries, Builds h₀ entry.2) {h : JsonHeap ν} (hs : Sound h)
    (hnext : h₀.next ≤ h.next) (hframe : ∀ m < h₀.next, h.nodes m = h₀.nodes m)
    (hfresh : h₀.next ≤ p) (hnode : p < h.next) (hp : h.nodes p = some y) (hroot : y.parent_ = none)
    (hkind : IsContainer isObject y.content) :
    match fill isObject p entries h with
    | .ok _ h' => Filling isObject p h h' []
    | .error e h' => Thrown e ∧ ∃ own, Filling isObject p h h' own := by
  induction entries generalizing h y with
  | nil =>
    exact ⟨hs, le_refl _, fun _ _ _ => rfl, rfl, fun _ hn => absurd hn List.not_mem_nil,
      y, hp, hroot, hkind⟩
  | cons entry entries ih =>
    obtain ⟨key, build⟩ := entry
    have hbuild : match build h with
        | .ok slot h' => Extends h slot.toList h' ∧ Parentless slot h'
        | .error e h' => Thrown e ∧ ∃ own, Extends h own h' :=
      hbuilds (key, build) List.mem_cons_self h hs hnext hframe
    rw [fill]
    cases hresult : build h with
    | error e h₁ =>
      rw [hresult] at hbuild
      obtain ⟨hthrown, own, hbuilt⟩ := hbuild
      rw [bind_error hresult]
      exact ⟨hthrown, own, hbuilt.sound, hbuilt.next_le, fun m hm _ => hbuilt.frame m hm,
        hbuilt.handles, hbuilt.fresh, y, (hbuilt.frame p hnode).trans hp, hroot, hkind⟩
    | ok child h₁ =>
      rw [hresult] at hbuild
      obtain ⟨hbuilt, hfree⟩ := hbuild
      have happend := filling_append key hnode hp hroot hkind hbuilt hfree
      rw [bind_ok hresult]
      cases happended : append isObject p key child h₁ with
      | error e h₂ => grind [bind_error]
      | ok _ h₂ =>
        rw [happended] at happend
        rw [bind_ok happended]
        obtain ⟨y₂, hp₂, hroot₂, hkind₂⟩ := happend.container
        have hnext₂ := happend.next_le
        have hrest := ih (fun entry hmem => hbuilds entry (List.mem_cons_of_mem _ hmem))
          happend.sound (by omega)
          (fun m hm => (happend.frame m (by omega) (by omega)).trans (hframe m hm))
          (by omega) hp₂ hroot₂ hkind₂
        have hhandles : h₂.handles = h.handles := happend.handles
        cases hfill : fill isObject p entries h₂ with
        | ok _ h₃ =>
          rw [hfill] at hrest
          exact ⟨hrest.sound, le_trans hnext₂ hrest.next_le,
            fun m hm hmp => (hrest.frame m (by omega) hmp).trans (happend.frame m hm hmp),
            by rw [hrest.handles, hhandles], fun n hn => absurd hn List.not_mem_nil,
            hrest.container⟩
        | error e h₃ =>
          rw [hfill] at hrest
          obtain ⟨hthrown, own, hrest⟩ := hrest
          exact ⟨hthrown, own, hrest.sound, le_trans hnext₂ hrest.next_le,
            fun m hm hmp => (hrest.frame m (by omega) hmp).trans (happend.frame m hm hmp),
            by rw [hrest.handles, hhandles],
            fun n hn => le_trans hnext₂ (hrest.fresh n hn), hrest.container⟩

theorem alloc_extends (hs : Sound h) (hroot : x.parent_ = none) (hempty : x.children = []) :
    Extends h [h.next] (h.alloc x) ∧ (h.alloc x).nodes h.next = some x := by
  have hself : (h.alloc x).nodes h.next = some x := Function.update_self ..
  have hother : ∀ m, m ≠ h.next → (h.alloc x).nodes m = h.nodes m := fun m hm =>
    Function.update_of_ne hm ..
  have hdead : h.nodes h.next = none := h.nodes_eq_none _ (le_refl _)
  have hparent : (view (h.alloc x)).parent = (view h).parent := by
    funext m
    by_cases hm : m = h.next
    · subst hm
      rw [view_parent hself, hroot]
      change none = (h.nodes h.next).bind _
      rw [hdead]
      rfl
    · change ((h.alloc x).nodes m).bind _ = (h.nodes m).bind _
      rw [hother m hm]
  have hchildren : ∀ q, (view (h.alloc x)).children q = (view h).children q := fun q => by
    cases q with
    | aside => rfl
    | below m =>
      by_cases hm : m = h.next
      · subst hm
        rw [view_children hself, hempty]
        change [] = ((h.nodes h.next).map _).getD []
        rw [hdead]
        rfl
      · change (((h.alloc x).nodes m).map _).getD [] = ((h.nodes m).map _).getD []
        rw [hother m hm]
  have halive : ∀ m, Alive h m → Alive (h.alloc x) m := fun m hm => by
    rw [Alive, hother m]
    · exact hm
    · rintro rfl
      rw [Alive, hdead] at hm
      cases hm
  refine ⟨⟨⟨hs.consistent.of_perm hparent fun q => List.Perm.of_eq (hchildren q), fun m hm => ?_,
    fun m hm => ?_⟩, Nat.le_succ _, fun m hm => hother m (by omega), rfl, fun m hm => ?_⟩, hself⟩
  · obtain rfl | hm := List.mem_cons.mp hm
    · exact alive_of_eq hself
    · exact halive m (hs.handles_alive m hm)
  · by_cases hmn : m = h.next
    · exact Or.inl (hmn ▸ List.mem_cons_self)
    · rw [Alive, hother m hmn] at hm
      refine (hs.held m hm).imp (List.mem_cons_of_mem _) (Exists.imp fun q hq => ?_)
      rw [Forest.IsParent, hparent]
      exact hq
  · exact le_of_eq (List.mem_singleton.mp hm).symm

theorem make_eq (content : JsonContent ν) (h : JsonHeap ν) :
    make caseInsensitive content h = .ok h.next (h.alloc ⟨none, caseInsensitive, content⟩) := rfl

theorem builds_null : Builds h₀ (pure none : JsonProgram ν (Option ℕ)) :=
  fun _ hs _ _ => ⟨⟨hs, le_refl _, fun _ _ => rfl, rfl, fun _ hn => absurd hn List.not_mem_nil⟩,
    fun _ hn => nomatch hn⟩

theorem builds_value (value : ν) :
    Builds h₀ (make caseInsensitive (.value value) >>= fun n => pure (some n)) := by
  intro h hs _ _
  obtain ⟨hextends, hself⟩ :=
    alloc_extends (x := ⟨none, caseInsensitive, .value value⟩) hs rfl rfl
  refine ⟨hextends, fun n hn => ?_⟩
  cases hn
  exact ⟨_, hself, rfl⟩

theorem builds_container
    (hbuilds : ∀ entry ∈ entries, Builds h₀ entry.2) (hkind : IsContainer isObject content)
    (hempty : refs content.slots = []) :
    Builds h₀ (make caseInsensitive content >>= fun n =>
      fill isObject n entries >>= fun _ => pure (some n)) := by
  intro h hs hnext hframe
  rw [bind_ok (make_eq caseInsensitive content h)]
  obtain ⟨hextends, hself⟩ := alloc_extends (x := ⟨none, caseInsensitive, content⟩) hs rfl hempty
  have hfill := fill_spec hbuilds hextends.sound (le_trans hnext hextends.next_le)
    (fun m hm => (hextends.frame m (by omega)).trans (hframe m hm)) hnext
    (Nat.lt_succ_self h.next) hself rfl hkind
  have hframe' : ∀ {h' : JsonHeap ν} {own : List ℕ},
      Filling isObject h.next (h.alloc ⟨none, caseInsensitive, content⟩) h' own →
      ∀ m < h.next, h'.nodes m = h.nodes m := fun hfilled m hm =>
    (hfilled.frame m (Nat.lt_succ_of_lt hm) (by omega)).trans (hextends.frame m hm)
  cases hresult : fill isObject h.next entries (h.alloc ⟨none, caseInsensitive, content⟩) with
  | ok _ h' =>
    rw [hresult] at hfill
    rw [bind_ok hresult]
    obtain ⟨y, hy, hroot, -⟩ := hfill.container
    refine ⟨⟨hfill.sound, le_trans hextends.next_le hfill.next_le, hframe' hfill, hfill.handles,
      fun n hn => ?_⟩, fun n hn => ?_⟩
    · exact le_of_eq (List.mem_singleton.mp hn).symm
    · cases hn
      exact ⟨y, hy, hroot⟩
  | error e h' =>
    rw [hresult] at hfill
    obtain ⟨hthrown, own, hfill⟩ := hfill
    rw [bind_error hresult]
    refine ⟨hthrown, own ++ [h.next], hfill.sound, le_trans hextends.next_le hfill.next_le,
      hframe' hfill, ?_, fun n hn => ?_⟩
    · rw [hfill.handles, List.append_assoc]
      rfl
    · obtain hn | hn := List.mem_append.mp hn
      · exact le_trans hextends.next_le (hfill.fresh n hn)
      · exact le_of_eq (List.mem_singleton.mp hn).symm

/-! ## The clone of a tree -/

/-- By induction on the fuel: the way down is no longer than the number of nodes. -/
theorem builds_clone (hf : (view h₀).Consistent) (fuel : ℕ) (slot : Option ℕ)
    (hslot : ∀ n ∈ slot, Alive h₀ n ∧ h₀.next < fuel + {a | (view h₀).IsAbove a n}.ncard) :
    Builds h₀ (cloneSlot (cloneFrom fuel) slot) := by
  induction fuel generalizing slot with
  | zero =>
    cases slot with
    | none => exact builds_null
    | some n =>
      obtain ⟨halive, hlt⟩ := hslot n rfl
      have hle := ncard_above_le hf halive
      omega
  | succ fuel ih =>
    cases slot with
    | none => exact builds_null
    | some n =>
      obtain ⟨halive, hlt⟩ := hslot n rfl
      obtain ⟨x, hx⟩ := alive_iff.mp halive
      have hrange : n < h₀.next := by
        by_contra hle
        rw [h₀.nodes_eq_none n (by omega)] at hx
        cases hx
      have hchildren : ∀ c ∈ x.children, Builds h₀ (cloneSlot (cloneFrom fuel) (some c)) := by
        intro c hc
        have hparent : (view h₀).IsParent n c := by
          rw [← view_children hx] at hc
          exact (mem_children_iff hf).mp hc
        have hc_alive := (alive_of_isParent hf hparent).2
        have hlt' := hf.ncard_above_lt_of_finite hparent (finite_above hf hc_alive)
        refine ih (some c) fun m hm => ?_
        grind
      have hentries : ∀ slot ∈ x.content.slots, Builds h₀ (cloneSlot (cloneFrom fuel) slot) := by
        intro slot hmem
        cases slot with
        | none => exact builds_null
        | some c => exact hchildren c (List.mem_filterMap.mpr ⟨some c, hmem, rfl⟩)
      intro h hs hnext hframe
      have hderef : deref n h = .ok x h := deref_eq ((hframe n hrange).trans hx)
      rw [cloneSlot, cloneFrom, bind_assoc, bind_ok hderef]
      cases hcontent : x.content with
      | value v =>
        exact builds_value x.caseInsensitive v h hs hnext hframe
      | array items =>
        rw [hcontent] at hentries
        simp only [bind_assoc, pure_bind]
        refine builds_container x.caseInsensitive (fun entry hmem => ?_)
          (show IsContainer false (.array []) from rfl) rfl h hs hnext hframe
        obtain ⟨item, hitem, rfl⟩ := List.mem_map.mp hmem
        exact hentries item hitem
      | object properties =>
        rw [hcontent] at hentries
        simp only [bind_assoc, pure_bind]
        refine builds_container x.caseInsensitive (fun entry hmem => ?_)
          (show IsContainer true (.object []) from rfl) rfl h hs hnext hframe
        obtain ⟨property, hproperty, rfl⟩ := List.mem_map.mp hmem
        exact hentries property.2 (List.mem_map_of_mem hproperty)

/-! ## The tree of a JSON value -/

theorem isContainer_emptied : IsContainer j.isObject j.emptied := by
  rw [OrderedJson.emptied]
  cases hkind : j.isObject <;> exact rfl

theorem refs_emptied : refs j.emptied.slots = [] := by
  rw [OrderedJson.emptied]
  cases j.isObject <;> rfl

theorem fromNlohmannRec_container {j : OrderedJson ν}
    (hnull : j ≠ .null) (hscalar : ∀ value, j ≠ .scalar value) :
    fromNlohmannRec caseInsensitive j = (make caseInsensitive j.emptied >>= fun n =>
      fill j.isObject n
        (j.entries.map fun entry => (entry.1, fromNlohmannRec caseInsensitive entry.2)) >>=
      fun _ => pure (some n)) := by
  have hmap : (j.entries.attach.map fun entry =>
        (entry.val.1, fromNlohmannRec caseInsensitive entry.val.2)) =
      j.entries.map fun entry => (entry.1, fromNlohmannRec caseInsensitive entry.2) := by
    conv_rhs => rw [← List.attach_map_subtype_val j.entries, List.map_map]
    rfl
  rw [← hmap]
  exact fromNlohmannRec.eq_3 caseInsensitive j hnull hscalar

/-- By induction on the value. -/
theorem builds_fromNlohmannRec : Builds h₀ (fromNlohmannRec caseInsensitive j) := by
  induction hsize : sizeOf j using Nat.strong_induction_on generalizing j with
  | _ size ih =>
    have hentries : ∀ entry ∈ j.entries.map fun entry =>
        (entry.1, fromNlohmannRec caseInsensitive entry.2), Builds h₀ entry.2 := by
      intro entry hmem
      obtain ⟨source, hsource, rfl⟩ := List.mem_map.mp hmem
      exact ih _ (hsize ▸ OrderedJson.sizeOf_lt_of_mem hsource) source.2 rfl
    have hcontainer := builds_container caseInsensitive hentries (isContainer_emptied j)
      (refs_emptied j)
    cases j with
    | null =>
      rw [fromNlohmannRec]
      exact builds_null
    | scalar value =>
      rw [fromNlohmannRec]
      exact builds_value caseInsensitive value
    | array items =>
      rw [fromNlohmannRec_container caseInsensitive (j := .array items)
        (fun h => by cases h) fun _ h => by cases h]
      exact hcontainer
    | object members =>
      rw [fromNlohmannRec_container caseInsensitive (j := .object members)
        (fun h => by cases h) fun _ h => by cases h]
      exact hcontainer

/-- The loop builds the children a frame has left as the recursion does.  By induction on what is
left to build. -/
theorem buildLoop_eq (next : List (List UInt8 × OrderedJson ν))
    (node : ℕ) (key : List UInt8) (isObject : Bool) (stack : List (BuildFrame ν)) :
    buildLoop caseInsensitive (⟨next, node, key, isObject⟩ :: stack) =
      fill isObject node
          (next.map fun entry => (entry.1, fromNlohmannRec caseInsensitive entry.2)) >>=
        fun _ => buildLoop caseInsensitive (⟨[], node, key, isObject⟩ :: stack) := by
  induction hweight : OrderedJson.weight next using Nat.strong_induction_on
    generalizing next node key isObject stack with
  | _ size ih =>
    cases next with
    | nil => rfl
    | cons entry next =>
      obtain ⟨childKey, child⟩ := entry
      rw [OrderedJson.weight_cons] at hweight
      have hnext := fun stack => ih _ (by omega) next node key isObject stack rfl
      have hinner : ∀ n, buildLoop caseInsensitive
          (openContainer child n childKey :: ⟨next, node, key, isObject⟩ :: stack) =
            (fill child.isObject n (child.entries.map fun entry =>
                (entry.1, fromNlohmannRec caseInsensitive entry.2)) >>= fun _ =>
              append isObject node childKey (some n) >>= fun _ =>
                buildLoop caseInsensitive (⟨next, node, key, isObject⟩ :: stack)) := fun n => by
        have hlt := OrderedJson.weight_entries_lt child
        rw [openContainer, ih _ (by omega) child.entries n childKey child.isObject _ rfl]
        refine congrArg _ (funext fun _ => ?_)
        rw [buildLoop]
        rfl
      rw [List.map_cons, fill]
      cases child with
      | null =>
        rw [buildLoop, fromNlohmannRec]
        simp only [pure_bind, bind_assoc, hnext]
        rfl
      | scalar value =>
        rw [buildLoop, fromNlohmannRec]
        simp only [pure_bind, bind_assoc, hnext]
        rfl
      | array items =>
        rw [buildLoop, fromNlohmannRec_container caseInsensitive (j := .array items)
          (fun h => by cases h) fun _ h => by cases h]
        simp only [pure_bind, bind_assoc, hinner, hnext]
      | object members =>
        rw [buildLoop, fromNlohmannRec_container caseInsensitive (j := .object members)
          (fun h => by cases h) fun _ h => by cases h]
        simp only [pure_bind, bind_assoc, hinner, hnext]

theorem fromNlohmann_eq : fromNlohmann caseInsensitive j = fromNlohmannRec caseInsensitive j := by
  have hloop : ∀ n, buildLoop caseInsensitive [openContainer j n []] =
      fill j.isObject n
          (j.entries.map fun entry => (entry.1, fromNlohmannRec caseInsensitive entry.2)) >>=
        fun _ => pure (some n) := fun n => by
    rw [openContainer, buildLoop_eq]
    refine congrArg _ (funext fun _ => ?_)
    rw [buildLoop]
  cases j with
  | null => rw [fromNlohmann, fromNlohmannRec]
  | scalar value => rw [fromNlohmann, fromNlohmannRec]
  | array items => grind [fromNlohmann.eq_3, fromNlohmannRec_container]
  | object members => grind [fromNlohmann.eq_3, fromNlohmannRec_container]

/-! ## A tree that is given up -/

theorem isAbove_lt_next (hs : Sound h) (hs' : Sound h') (hframe : ∀ m < h.next, h'.nodes m = h.nodes m)
    {r : ℕ} (hr : r < h.next) (habove : (view h').IsAbove r n) : n < h.next := by
  induction habove with
  | refl => exact hr
  | @tail q m _ hparent ih =>
    obtain ⟨y, hy⟩ := alive_iff.mp (alive_of_isParent hs'.consistent hparent).1
    have hmem := (mem_children_iff hs'.consistent).mpr hparent
    rw [view_children hy] at hmem
    rw [hframe q ih] at hy
    rw [← view_children hy] at hmem
    have halive := (alive_of_isParent hs.consistent ((mem_children_iff hs.consistent).mp hmem)).2
    by_contra hle
    rw [Alive, h.nodes_eq_none m (by omega)] at halive
    cases halive

theorem nodes_eq_of_frame (hs : Sound h) (hs' : Sound h')
    (hframe : ∀ m < h.next, h'.nodes m = h.nodes m) (hhandles : h'.handles = h.handles) :
    h'.nodes = h.nodes := by
  funext m
  by_cases hm : m < h.next
  · exact hframe m hm
  · rw [h.nodes_eq_none m (by omega)]
    by_contra hsome
    have halive : Alive h' m := Option.isSome_iff_ne_none.mpr hsome
    obtain ⟨r, -, habove, hroot⟩ := rootFrom_eq hs'.consistent h'.next halive
      (ncard_above_le hs'.consistent halive)
    have hr_alive := alive_of_isAbove hs'.consistent habove halive
    obtain hhandle | ⟨q, hq⟩ := hs'.held r hr_alive
    · rw [hhandles] at hhandle
      have hr : r < h.next := by
        by_contra hle
        have hdead := hs.handles_alive r hhandle
        rw [Alive, h.nodes_eq_none r (by omega)] at hdead
        cases hdead
      exact hm (isAbove_lt_next hs hs' hframe hr habove)
    · exact hroot q hq

/-- What a call makes of a heap that is sound: it stays sound, and an exception leaves the nodes and
the handles. -/
def Keeps {α : Type} (h : JsonHeap ν) : EStateM.Result JsonNodeFault (JsonHeap ν) α → Prop
  | .ok _ h' => Sound h'
  | .error e h' => Thrown e ∧ Sound h' ∧ h'.nodes = h.nodes ∧ h'.handles = h.handles

theorem keeps_guarded {α : Type} {p : JsonProgram ν α} (hs : Sound h)
    (hp : match p h with
      | .ok _ h' => Sound h'
      | .error e h' => Thrown e ∧ ∃ own, Extends h own h') : Keeps h (guarded p h) := by
  rw [guarded]
  cases hresult : p h with
  | ok a h' =>
    rw [hresult] at hp
    exact hp
  | error e h' =>
    rw [hresult] at hp
    obtain ⟨hthrown, own, hextends⟩ := hp
    have hown : h'.handles.take (h'.handles.length - h.handles.length) = own := by
      simp [hextends.handles]
    have hheld : SoundWith { h' with handles := h.handles } own := by
      refine ⟨hextends.sound.consistent, fun m hm => hextends.sound.handles_alive m ?_,
        fun m hm => hextends.sound.handles_alive m ?_, fun m hm => ?_⟩
      · rw [hextends.handles]
        exact List.mem_append_right _ hm
      · grind
      · obtain hhandle | hparent := hextends.sound.held m hm
        · grind [hextends.handles]
        · exact Or.inr (Or.inr hparent)
    have hclosed : ClosedFrom h.next { h' with handles := h.handles } := by
      intro q y hq hy c hc
      by_contra hlt
      have hparent : (view h').IsParent q c := by
        rw [← mem_children_iff hextends.sound.consistent, view_children (h := h') hy]
        exact hc
      obtain ⟨x, hx, hxp⟩ := isParent_iff.mp hparent
      rw [hextends.frame c (by omega)] at hx
      have hold : (view h).IsParent q c := isParent_iff.mpr ⟨x, hx, hxp⟩
      have halive := (alive_of_isParent hs.consistent hold).1
      rw [Alive, h.nodes_eq_none q hq] at halive
      cases halive
    obtain ⟨h'', hdrain, hsound, -, hhandles, hframe⟩ := drain_sound h.next _ own hheld
    have hframe' : ∀ m < h.next, h''.nodes m = h.nodes m := fun m hm =>
      (hframe hclosed hextends.fresh m hm).trans (hextends.frame m hm)
    dsimp only
    rw [hown, hdrain]
    exact ⟨hthrown, hsound, nodes_eq_of_frame hs hsound hframe' hhandles, hhandles⟩

theorem keeps_clone (hs : Sound h) (hn : Alive h n) : Keeps h (deepClone n h) := by
  refine keeps_guarded hs ?_
  rw [get_bind]
  have hpos := ncard_above_pos hs.consistent hn
  have hbuild := builds_clone hs.consistent h.next (some n)
    (fun m hm => by cases hm; exact ⟨hn, by omega⟩) h hs (le_refl _) fun _ _ => rfl
  cases hresult : cloneFrom h.next n h with
  | ok c h' =>
    rw [cloneSlot, bind_ok hresult] at hbuild
    exact hbuild.1.sound
  | error e h' =>
    rw [cloneSlot, bind_error hresult] at hbuild
    exact hbuild

theorem keeps_parse (hs : Sound h) (parse : List UInt8 → Except String (OrderedJson ν))
    (caseInsensitive : Bool) (json : List UInt8) :
    Keeps h (JsonNode.parse parse caseInsensitive json h) := by
  rw [JsonNode.parse, rejectEmbeddedNul]
  cases json.findIdx? (· == 0) with
  | some nul => exact ⟨⟨nofun, nofun⟩, hs, rfl, rfl⟩
  | none =>
    cases parse json with
    | error what => exact ⟨⟨nofun, nofun⟩, hs, rfl, rfl⟩
    | ok j =>
      refine keeps_guarded hs ?_
      rw [fromNlohmann_eq]
      have hbuild := (builds_fromNlohmannRec caseInsensitive j : Builds h _) h hs (le_refl _)
        fun _ _ => rfl
      cases hresult : fromNlohmannRec caseInsensitive j h with
      | ok slot h' =>
        rw [hresult] at hbuild
        exact hbuild.1.sound
      | error e h' =>
        rw [hresult] at hbuild
        exact hbuild

end SharpRuntime.Analysis.JsonBuilding
