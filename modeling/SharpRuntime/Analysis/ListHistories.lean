import SharpRuntime.Analysis.LinkedLists

/-!
# What the members of `LinkedList` do

Each member does to the sequences what it is for, or, if a list would have to count too many nodes,
nothing that the language defines.  Then so does every history; and since the version of a list is
the number of its changes in 64 bits, an enumerator knows whether that number has changed, but for
multiples of `2 ^ 64`.
-/

set_option autoImplicit false

namespace SharpRuntime.Analysis.ListHistories

open Machine Model Interface.ListHistory
open LinkedLists LinkedList
open Function
open LinkedListEnumerator

variable {α ι : Type} [DecidableEq ι] {s : LinkedListHeap α ι} {v : Lists α ι} {this : ι}

/-- A call ends with these lists, or, if they cannot be counted, is not defined. -/
def Does (v' : Lists α ι) (r : EStateM.Result ListFault (LinkedListHeap α ι) ListAnswer) : Prop :=
  (∃ s', ListWorld.after r = some ⟨s', v'.answer⟩ ∧ Tracks s' v') ∨
    (¬ v'.Countable ∧ ListWorld.after r = none)

/-! ## From the parts of a member to the member -/

variable {v' : Lists α ι}

variable {p : ListProgram α ι Unit} {s' : LinkedListHeap α ι}

theorem does_silent
    (hrun : p s = .ok () s') (hv' : Tracks s' v') : Does (v'.answered .done) (silent p s) := by
  refine .inl ⟨s', ?_, hv'.answered .done⟩
  rw [silent, bind_ok hrun]
  rfl

omit [DecidableEq ι] in
theorem handing_congr {p q : ListProgram α ι ℕ} (h : p s = q s) : handing p s = handing q s := by
  change EStateM.bind p _ s = EStateM.bind q _ s
  rw [EStateM.bind, EStateM.bind, h]

variable {l : List ℕ}

theorem does_of_inserts (h : Inserts v this l (p s)) :
    Does ((v.put this l 1).answered .done) (silent p s) := by
  obtain ⟨-, s', hrun, hs'⟩ | ⟨hfull, s', hrun⟩ := h
  · exact does_silent hrun hs'
  · refine .inr ⟨fun hcountable => ?_, by rw [silent, bind_error hrun]; rfl⟩
    have hle := hcountable this
    change (update v.sequence this l this).length ≤ intcsMax at hle
    rw [update_self] at hle
    omega

theorem does_of_inserts_made {p : ℕ → ListProgram α ι Unit} (value : α) (hs : Tracks s v)
    (h : ∀ s', Tracks s' (v.made value) → s'.owner v.allocated = none →
      Inserts (v.made value) this l (p v.allocated s')) :
    Does (((v.made value).put this l 1).answered (.node v.allocated))
      (handing (do
        let node ← makeNode value none
        p node
        pure node) s) := by
  obtain ⟨s₁, hmake, hs₁, hfree⟩ := makeNode_tracks hs value
  obtain ⟨-, s', hrun, hs'⟩ | ⟨hfull, s', hrun⟩ := h s₁ hs₁ hfree
  · refine .inl ⟨s', ?_, hs'.answered _⟩
    rw [handing, bind_ok ((bind_ok hmake).trans (bind_ok hrun))]
    rfl
  · refine .inr ⟨fun hcountable => ?_, ?_⟩
    · have hle := hcountable this
      change (update v.sequence this l this).length ≤ intcsMax at hle
      rw [update_self] at hle
      omega
    · rw [handing, bind_error ((bind_ok hmake).trans (bind_error hrun))]
      rfl

variable {p : ListProgram α ι ListAnswer}

variable {e : Exception}

theorem does_throw (hs : Tracks s v) (hrun : p s = .error (.runtime e) s) :
    Does (v.answered (.threw e)) (p s) := by
  refine .inl ⟨s, ?_, hs.answered _⟩
  rw [hrun]
  rfl

/-- A program that throws after some changes leaves the lists so. -/
theorem does_ending {p : ListProgram α ι Unit} (thrown : Option Exception)
    (hrun : p s = ending thrown s') (hv' : Tracks s' v') :
    Does (v'.answered (thrown.elim .done .threw)) (silent p s) := by
  cases thrown with
  | none => exact does_silent hrun hv'
  | some e =>
    refine .inl ⟨s', ?_, hv'.answered _⟩
    rw [silent, bind_error hrun]
    rfl

theorem does_ofCopy {change : Lists α ι} {fault : Option Exception} (hs : Tracks s v)
    (herror : ∀ e, fault = some e → p s = .error (.runtime e) s)
    (hok : fault = none → Does change (p s)) : Does (v.ofCopy fault change) (p s) := by
  cases fault with
  | none => exact hok rfl
  | some e => exact does_throw hs (herror e rfl)

theorem copies_of_thrown {fault : CopyFault} {n : ℕ} (h : Lists.thrown fault n = none) :
    Lists.copies fault n = n := by
  cases fault with
  | none => rfl
  | some fault =>
    simp only [Lists.thrown, ite_eq_right_iff] at h
    grind [Lists.copies]

variable {n : ℕ}

theorem validateNode_ok (hs : Tracks s v) (hn : n ∈ v.sequence this) :
    validateNode this (some n) s = .ok n s := by
  rw [validateNode, get_bind, if_neg (not_not.mpr ((hs.owner n this).mpr hn))]
  rfl

omit [DecidableEq ι] in
theorem validateNewNode_ok (hfree : s.owner n = none) : validateNewNode (some n) s = .ok n s := by
  rw [validateNewNode, get_bind, if_neg (not_not.mpr hfree)]
  rfl

variable {node : Option ℕ} {change : ℕ → Lists α ι}

theorem does_ofNode (hs : Tracks s v)
    (herror : ∀ e, validateNode this node s = .error e s → p s = .error e s)
    (hok : ∀ n, node = some n → n ∈ v.sequence this → Does (change n) (p s)) :
    Does (v.ofNode this node change) (p s) := by
  cases node with
  | none => exact does_throw hs (herror _ rfl)
  | some n =>
    rw [Lists.ofNode]
    by_cases hn : n ∈ v.sequence this
    · rw [if_pos hn]
      exact hok n rfl hn
    · rw [if_neg hn]
      refine does_throw hs (herror _ ?_)
      rw [validateNode, get_bind, if_pos fun h => hn ((hs.owner n this).mp h)]
      rfl

theorem does_ofNewNode (hs : Tracks s v)
    (herror : ∀ e, validateNewNode node s = .error e s → p s = .error e s)
    (hok : ∀ n, node = some n → s.owner n = none → Does (change n) (p s)) :
    Does (v.ofNewNode node change) (p s) := by
  cases node with
  | none => exact does_throw hs (herror _ rfl)
  | some n =>
    rw [Lists.ofNewNode]
    by_cases hn : ∃ this, n ∈ v.sequence this
    · rw [if_pos hn]
      refine does_throw hs (herror _ ?_)
      obtain ⟨this, hmem⟩ := hn
      rw [validateNewNode, get_bind, if_pos (by rw [(hs.owner n this).mpr hmem]; exact Option.some_ne_none _)]
      rfl
    · rw [if_neg hn]
      exact hok n rfl (hs.unowned fun this h => hn ⟨this, h⟩)

/-! ## Sequences with a node put in or taken out -/

variable {xs ys : List ℕ}

theorem idxOf_middle (hn : n ∉ xs) : (xs ++ n :: ys).idxOf n = xs.length := by
  rw [List.idxOf_append_of_notMem hn, List.idxOf_cons_self, Nat.add_zero]

theorem insertIdx_append (xs ys : List ℕ) (k m : ℕ) :
    (xs ++ ys).insertIdx (xs.length + k) m = xs ++ ys.insertIdx k m := by
  induction xs with
  | nil => rw [List.length_nil, Nat.zero_add, List.nil_append, List.nil_append]
  | cons x xs ih =>
    rw [List.length_cons, Nat.add_right_comm, List.cons_append, List.insertIdx_succ_cons, ih,
      List.cons_append]

theorem putBefore_eq (hn : n ∉ xs) (m : ℕ) :
    Lists.putBefore n m (xs ++ n :: ys) = xs ++ m :: n :: ys := by
  rw [Lists.putBefore, idxOf_middle hn]
  exact insertIdx_append xs (n :: ys) 0 m

theorem putAfter_eq (hn : n ∉ xs) (m : ℕ) :
    Lists.putAfter n m (xs ++ n :: ys) = xs ++ n :: m :: ys := by
  rw [Lists.putAfter, idxOf_middle hn]
  exact insertIdx_append xs (n :: ys) 1 m

omit [DecidableEq ι] in
theorem split_at (hs : Tracks s v) (hn : n ∈ v.sequence this) :
    ∃ xs ys, v.sequence this = xs ++ n :: ys ∧ n ∉ xs := by
  obtain ⟨xs, ys, hsequence⟩ := List.append_of_mem hn
  refine ⟨xs, ys, hsequence, fun hxs => ?_⟩
  have hnodup := hs.nodup this
  grind

theorem unlink_tracks (xs : List ℕ) (hs : Tracks s v)
    (hsequence : v.sequence this = xs ++ n :: ys) :
    ∃ s', unlink this n s = .ok () s' ∧ Tracks s' (v.put this (xs ++ ys) 1) :=
  ⟨_, rfl, unlinked_tracks hs hsequence⟩

/-! ## Lists as a whole -/

theorem put_put (l l' : List ℕ) (k k' : ℕ) :
    (v.put this l k).put this l' k' = v.put this l' (k + k') := by
  refine Lists.ext rfl rfl rfl (update_idem ..) ?_ rfl
  change update (update v.changes this (v.changes this + k)) this
    (update v.changes this (v.changes this + k) this + k') = _
  rw [update_self, update_idem, Nat.add_assoc]
  rfl

theorem emptied_tracks (hs : Tracks s v) (this : ι) :
    ∃ s₁ s₂, detachAll this s = .ok () s₁ ∧ bumpVersion this s₁ = .ok () s₂ ∧
      Tracks s₂ (v.put this [] 1) := by
  obtain ⟨s₁, hdetach, hs₁⟩ := detachAll_tracks hs this
  obtain ⟨s₂, hbump, hs₂⟩ := bumpVersion_tracks hs₁ this
  rw [sequence_put_self, put_put, Nat.zero_add] at hs₂
  exact ⟨s₁, s₂, hdetach, hbump, hs₂⟩

theorem construct_tracks (hs : Tracks s v) (hdead : v.alive this = false) :
    ∃ s', construct this s = .ok () s' ∧ Tracks s' (v.constructed this) := by
  have hempty := hs.dead this hdead
  have hsequence : (v.constructed this).sequence = v.sequence := by
    refine Eq.trans ?_ (update_eq_self this v.sequence)
    rw [hempty]
    rfl
  have hfields (P : ι → LinkedListFields → Prop) (hself : P this .default)
      (hother : ∀ other, P other (s.list other)) :
      ∀ other, P other (update s.list this LinkedListFields.default other) :=
    (forall_update_iff s.list P).mpr ⟨hself, fun other _ => hother other⟩
  refine ⟨{ s with
    list := update s.list this .default
    alive := update s.alive this true }, rfl, ?_⟩
  constructor
  case head =>
    rw [hsequence]
    exact hfields (fun other l => l.head_ = (v.sequence other).head?) (by rw [hempty]; rfl) hs.head
  case tail =>
    rw [hsequence]
    exact hfields (fun other l => l.tail_ = (v.sequence other).getLast?) (by rw [hempty]; rfl)
      hs.tail
  case count =>
    rw [hsequence]
    exact hfields (fun other l => l.count_ = (v.sequence other).length) (by rw [hempty]; rfl)
      hs.count
  case version =>
    intro other
    change _ = BitVec.ofNat 64 (update v.changes this 0 other)
    dsimp only
    by_cases hne : other = this
    · subst hne
      rw [update_self, update_self]
      rfl
    · rw [update_of_ne hne, update_of_ne hne]
      exact hs.version other
  case linked =>
    rw [hsequence]
    exact hs.linked
  case nodup =>
    rw [hsequence]
    exact hs.nodup
  case countable =>
    rw [Lists.Countable, hsequence]
    exact hs.countable
  case owner =>
    rw [hsequence]
    exact hs.owner
  case detached => exact hs.detached
  case made => exact hs.made
  case mem_made =>
    rw [hsequence]
    exact hs.mem_made
  case item => exact hs.item
  case allocated => exact hs.allocated
  case alive =>
    change update s.alive this true = update v.alive this true
    rw [hs.alive]
  case dead =>
    rw [hsequence]
    exact (forall_update_iff v.alive fun other alive =>
      alive = false → v.sequence other = []).mpr ⟨fun _ => hempty, fun other _ => hs.dead other⟩

theorem destroy_tracks (hs : Tracks s v) (this : ι) :
    ∃ s', destroy this s = .ok () s' ∧ Tracks s' { v.put this [] 0 with
      alive := update v.alive this false } := by
  obtain ⟨s₁, hdetach, hs₁⟩ := detachAll_tracks hs this
  refine ⟨{ s₁ with alive := update s₁.alive this false }, ?_, ?_⟩
  · exact (bind_ok hdetach).trans rfl
  · refine ⟨hs₁.head, hs₁.tail, hs₁.count, hs₁.version, hs₁.linked, hs₁.nodup, hs₁.countable,
      hs₁.owner, hs₁.detached, hs₁.made, hs₁.mem_made, hs₁.item, hs₁.allocated, ?_, ?_⟩
    · change update s₁.alive this false = update v.alive this false
      rw [hs₁.alive]
      rfl
    · exact (forall_update_iff v.alive fun other alive =>
        alive = false → (v.put this [] 0).sequence other = []).mpr
        ⟨fun _ => sequence_put_self this [] 0 v, fun other _ => hs₁.dead other⟩

omit [DecidableEq ι] in
theorem ne_of_alive {alive : ι → Bool} {this other : ι}
    (h : alive this = false ∧ alive other = true) : other ≠ this := by
  rintro rfl
  exact Bool.false_ne_true (h.1.symm.trans h.2)

/-! ## The members -/

/-- Each member does what its effect says. -/
theorem program_does [BEq α] (hs : Tracks s v) (action : ListAction α ι)
    (hcallable : Callable v.alive v.allocated action) : Does (v.effect action) (action.program s) := by
  cases action with
  | construct this =>
    obtain ⟨s', hconstruct, hs'⟩ := construct_tracks hs hcallable
    exact does_silent hconstruct hs'
  | copyConstruct this other fault =>
    have hne := ne_of_alive hcallable
    obtain ⟨s₁, hconstruct, hs₁⟩ := construct_tracks hs hcallable.1
    obtain ⟨s₂, hcopy, hs₂⟩ := copyNodesFrom_tracks hs₁ hne (update_self ..)
      (update_self ..) fault
    have hsequence : (v.constructed this).sequence other = v.sequence other :=
      update_of_ne hne ..
    have hrun : (construct this >>= fun _ => copyNodesFrom this other fault) s = _ :=
      (bind_ok hconstruct).trans hcopy
    rw [hsequence] at hrun hs₂
    refine does_ofCopy hs (fun e he => bind_error ?_) fun hnone => ?_
    · rw [copyConstruct, hrun, he, ending]
    · rw [copies_of_thrown hnone, List.take_length] at hs₂
      refine does_silent ?_ hs₂
      rw [copyConstruct, hrun, hnone, ending]
  | moveConstruct this other =>
    have hne := ne_of_alive hcallable
    obtain ⟨s₁, hconstruct, hs₁⟩ := construct_tracks hs hcallable.1
    obtain ⟨s₂, hadopt, hs₂⟩ := adoptNodesFrom_tracks hs₁ hne (update_self ..)
      (update_self ..)
    exact does_silent ((bind_ok hconstruct).trans hadopt) hs₂
  | destroy this =>
    obtain ⟨s', hdestroy, hs'⟩ := destroy_tracks hs this
    exact does_silent hdestroy hs'
  | copyAssign this other fault =>
    by_cases heq : this = other
    · rw [Lists.effect, if_pos heq]
      exact does_silent (by rw [copyAssign, if_pos heq]; rfl) hs
    · obtain ⟨s₁, s₂, hdetach, hbump, hs₂⟩ := emptied_tracks hs this
      obtain ⟨s₃, hcopy, hs₃⟩ := copyNodesFrom_tracks hs₂ (Ne.symm heq) hcallable.1
        (sequence_put_self ..) fault
      rw [sequence_put_of_ne (Ne.symm heq)] at hcopy hs₃
      rw [Lists.effect, if_neg heq]
      refine does_ending _ ?_ hs₃
      rw [copyAssign, if_neg heq]
      exact (bind_ok hdetach).trans ((bind_ok hbump).trans hcopy)
  | moveAssign this other =>
    by_cases heq : this = other
    · rw [Lists.effect, if_pos heq]
      exact does_silent (by rw [moveAssign, if_pos heq]; rfl) hs
    · obtain ⟨s₁, s₂, hdetach, hbump, hs₂⟩ := emptied_tracks hs this
      obtain ⟨s₃, hadopt, hs₃⟩ := adoptNodesFrom_tracks hs₂ (Ne.symm heq) hcallable.1
        (sequence_put_self ..)
      rw [Lists.effect, if_neg heq]
      refine does_silent ?_ hs₃
      rw [moveAssign, if_neg heq]
      exact (bind_ok hdetach).trans ((bind_ok hbump).trans hadopt)
  | makeNode value fault =>
    refine does_ofCopy hs (fun e he => he ▸ rfl) ?_
    rintro rfl
    obtain ⟨s', hmake, hs', -⟩ := makeNode_tracks hs value
    refine .inl ⟨s', ?_, hs'.answered _⟩
    rw [ListAction.program, handing, bind_ok hmake]
    rfl
  | addFirst this value fault =>
    refine does_ofCopy hs (fun e he => he ▸ rfl) ?_
    rintro rfl
    exact does_of_inserts_made value hs fun s' hs' hfree =>
      insertFirst_inserts hs' hfree (Nat.lt_succ_self _) hcallable
  | addFirstNode this node =>
    refine does_ofNewNode hs (fun e h => bind_error (bind_error h)) ?_
    rintro n rfl hfree
    refine does_of_inserts ?_
    rw [addFirstNode, bind_ok (validateNewNode_ok hfree)]
    exact insertFirst_inserts hs hfree (hcallable.2 n rfl) hcallable.1
  | addLast this value fault =>
    refine does_ofCopy hs (fun e he => he ▸ rfl) ?_
    rintro rfl
    exact does_of_inserts_made value hs fun s' hs' hfree =>
      insertLast_inserts hs' hfree (Nat.lt_succ_self _) hcallable
  | addLastNode this node =>
    refine does_ofNewNode hs (fun e h => bind_error (bind_error h)) ?_
    rintro n rfl hfree
    refine does_of_inserts ?_
    rw [addLastNode, bind_ok (validateNewNode_ok hfree)]
    exact insertLast_inserts hs hfree (hcallable.2 n rfl) hcallable.1
  | addBefore this node value fault =>
    refine does_ofNode hs (fun e h => bind_error (bind_error h)) ?_
    rintro n rfl hn
    refine does_ofCopy hs
      (fun e he => bind_error ((bind_ok (validateNode_ok hs hn)).trans (he ▸ rfl))) ?_
    rintro rfl
    obtain ⟨xs, ys, hsequence, hxs⟩ := split_at hs hn
    rw [hsequence, putBefore_eq hxs]
    have hadd := does_of_inserts_made value hs fun s' hs' hfree =>
      insertBefore_inserts hs' hsequence hfree (Nat.lt_succ_self _) hcallable.1
    have hrun : addBefore this (some n) value none s = _ := bind_ok (validateNode_ok hs hn)
    rw [ListAction.program, handing_congr hrun]
    exact hadd
  | addBeforeNode this node newNode =>
    refine does_ofNode hs (fun e h => bind_error (bind_error h)) ?_
    rintro n rfl hn
    refine does_ofNewNode hs
      (fun e h => bind_error ((bind_ok (validateNode_ok hs hn)).trans (bind_error h))) ?_
    rintro m rfl hfree
    obtain ⟨xs, ys, hsequence, hxs⟩ := split_at hs hn
    rw [hsequence, putBefore_eq hxs]
    refine does_of_inserts ?_
    rw [addBeforeNode, bind_ok (validateNode_ok hs hn), bind_ok (validateNewNode_ok hfree)]
    exact insertBefore_inserts hs hsequence hfree (hcallable.2.2 m rfl) hcallable.1
  | addAfter this node value fault =>
    refine does_ofNode hs (fun e h => bind_error (bind_error h)) ?_
    rintro n rfl hn
    refine does_ofCopy hs
      (fun e he => bind_error ((bind_ok (validateNode_ok hs hn)).trans (he ▸ rfl))) ?_
    rintro rfl
    obtain ⟨xs, ys, hsequence, hxs⟩ := split_at hs hn
    rw [hsequence, putAfter_eq hxs]
    have hadd := does_of_inserts_made value hs fun s' hs' hfree =>
      insertAfter_inserts hs' hsequence hfree (Nat.lt_succ_self _) hcallable.1
    have hrun : addAfter this (some n) value none s = _ := bind_ok (validateNode_ok hs hn)
    rw [ListAction.program, handing_congr hrun]
    exact hadd
  | addAfterNode this node newNode =>
    refine does_ofNode hs (fun e h => bind_error (bind_error h)) ?_
    rintro n rfl hn
    refine does_ofNewNode hs
      (fun e h => bind_error ((bind_ok (validateNode_ok hs hn)).trans (bind_error h))) ?_
    rintro m rfl hfree
    obtain ⟨xs, ys, hsequence, hxs⟩ := split_at hs hn
    rw [hsequence, putAfter_eq hxs]
    refine does_of_inserts ?_
    rw [addAfterNode, bind_ok (validateNode_ok hs hn), bind_ok (validateNewNode_ok hfree)]
    exact insertAfter_inserts hs hsequence hfree (hcallable.2.2 m rfl) hcallable.1
  | removeFirst this =>
    change Does (v.ofNonempty this ((v.put this (v.sequence this).tail 1).answered .done)) _
    rw [Lists.ofNonempty]
    cases hsequence : v.sequence this with
    | nil =>
      refine does_throw hs (bind_error ?_)
      rw [removeFirst, get_bind, hs.head this, hsequence]
      rfl
    | cons n ys =>
      obtain ⟨s', hunlink, hs'⟩ := unlink_tracks [] hs hsequence
      refine does_silent ?_ hs'
      rw [removeFirst, get_bind, hs.head this, hsequence]
      exact hunlink
  | removeLast this =>
    change Does (v.ofNonempty this ((v.put this (v.sequence this).dropLast 1).answered .done)) _
    rw [Lists.ofNonempty]
    rcases List.eq_nil_or_concat (v.sequence this) with hsequence | ⟨xs, n, hsequence⟩
    · rw [if_pos hsequence]
      refine does_throw hs (bind_error ?_)
      rw [removeLast, get_bind, hs.tail this, hsequence]
      rfl
    · rw [List.concat_eq_append] at hsequence
      rw [hsequence, if_neg (by simp), List.dropLast_concat]
      obtain ⟨s', hunlink, hs'⟩ := unlink_tracks xs hs hsequence
      rw [List.append_nil] at hs'
      refine does_silent ?_ hs'
      rw [removeLast, get_bind, hs.tail this, hsequence, List.getLast?_concat]
      exact hunlink
  | remove this value =>
    have hfind := findFrom_eq value (hs.linked this) (hs.length_le this)
    rw [← hs.head this] at hfind
    rw [Lists.effect, ← hs.item]
    cases hfound : (v.sequence this).find? fun n => (s.item n).any (· == value) with
    | none =>
      rw [hfound] at hfind
      rw [if_neg (by simpa using hfound)]
      refine .inl ⟨s, ?_, hs.answered _⟩
      rw [ListAction.program, LinkedList.remove, bind_ok (by rw [get_bind, hfind]; rfl)]
      rfl
    | some n =>
      rw [hfound] at hfind
      obtain ⟨hn, xs, ys, hsequence, hxs⟩ := List.find?_eq_some_iff_append.mp hfound
      obtain ⟨s', hunlink, hs'⟩ := unlink_tracks xs hs hsequence
      have hany : (v.sequence this).any (fun n => (s.item n).any (· == value)) = true :=
        List.any_eq_true.mpr ⟨n, List.mem_of_find?_eq_some hfound, hn⟩
      rw [if_pos hany, hsequence, List.eraseP_append_right _ fun m hm => by simpa using hxs m hm,
        List.eraseP_cons_of_pos (p := fun n => (s.item n).any (· == value)) hn]
      refine .inl ⟨s', ?_, hs'.answered _⟩
      rw [ListAction.program, LinkedList.remove,
        bind_ok (by rw [get_bind, hfind]; exact (bind_ok hunlink).trans rfl)]
      rfl
  | removeNode this node =>
    refine does_ofNode hs (fun e h => bind_error (bind_error h)) ?_
    rintro n rfl hn
    obtain ⟨xs, ys, hsequence, hxs⟩ := split_at hs hn
    obtain ⟨s', hunlink, hs'⟩ := unlink_tracks xs hs hsequence
    rw [hsequence, List.erase_append_right _ hxs, List.erase_cons_head]
    exact does_silent ((bind_ok (validateNode_ok hs hn)).trans hunlink) hs'
  | clear this =>
    obtain ⟨s₁, s₂, hdetach, hbump, hs₂⟩ := emptied_tracks hs this
    exact does_silent ((bind_ok hdetach).trans hbump) hs₂

/-! ## What a member leaves -/

/-- A list that stays is as it was, or has counted a change. -/
structure Counts (this : ι) (v v' : Lists α ι) : Prop where
  alive : v'.alive this = v.alive this
  changes : v.changes this ≤ v'.changes this
  sequence : v'.sequence this ≠ v.sequence this → v.changes this < v'.changes this

namespace Counts

variable {v' v'' : Lists α ι}

omit [DecidableEq ι] in
theorem of_eq (halive : v'.alive this = v.alive this) (hchanges : v'.changes this = v.changes this)
    (hsequence : v'.sequence this = v.sequence this) : Counts this v v' :=
  ⟨halive, hchanges.ge, fun h => absurd hsequence h⟩

omit [DecidableEq ι] in
theorem trans (h : Counts this v v') (h' : Counts this v' v'') : Counts this v v'' where
  alive := h'.alive.trans h.alive
  changes := h.changes.trans h'.changes
  sequence hne := by
    by_cases heq : v'.sequence this = v.sequence this
    · rw [← heq] at hne
      exact h.changes.trans_lt (h'.sequence hne)
    · exact (h.sequence heq).trans_le h'.changes

omit [DecidableEq ι] in
theorem answered (h : Counts this v v') (answer : ListAnswer) :
    Counts this v (v'.answered answer) :=
  ⟨h.alive, h.changes, h.sequence⟩

variable {other : ι}

theorem put_of_ne (hne : this ≠ other) (l : List ℕ) (k : ℕ) : Counts this v (v.put other l k) :=
  of_eq rfl (update_of_ne hne ..) (update_of_ne hne ..)

theorem put (other : ι) (l : List ℕ) {k : ℕ} (hk : l ≠ v.sequence other → 0 < k) :
    Counts this v (v.put other l k) := by
  by_cases hne : this = other
  · subst hne
    refine ⟨rfl, ?_, ?_⟩
    · simp
    · rw [sequence_put_self]
      intro h
      change _ < update v.changes this _ this
      rw [update_self]
      exact Nat.lt_add_of_pos_right (hk h)
  · exact put_of_ne hne l k

theorem constructed (hne : this ≠ other) : Counts this v (v.constructed other) :=
  of_eq (update_of_ne hne ..) (update_of_ne hne ..) (update_of_ne hne ..)

theorem copyTo {nodes : List ℕ} (hempty : v.sequence other = []) :
    Counts this v (v.copyTo other nodes) := by
  have hcopied : Counts this v (v.copied nodes) := of_eq rfl rfl rfl
  refine hcopied.trans (put other _ fun h => List.length_pos_iff.mpr fun hnone => h ?_)
  rw [hnone]
  exact hempty.symm

omit [DecidableEq ι] in
theorem ofCopy {fault : Option Exception} {change : Lists α ι} (h : Counts this v change) :
    Counts this v (v.ofCopy fault change) := by
  cases fault with
  | none => exact h
  | some e => exact .of_eq rfl rfl rfl

variable {node : Option ℕ} {change : ℕ → Lists α ι}

omit [DecidableEq ι] in
theorem ofNode
    (h : ∀ n, Counts this v (change n)) : Counts this v (v.ofNode other node change) := by
  unfold Lists.ofNode
  split
  · exact .of_eq rfl rfl rfl
  · split
    · exact h _
    · exact .of_eq rfl rfl rfl

omit [DecidableEq ι] in
theorem ofNewNode
    (h : ∀ n, Counts this v (change n)) : Counts this v (v.ofNewNode node change) := by
  unfold Lists.ofNewNode
  split
  · exact .of_eq rfl rfl rfl
  · split
    · exact .of_eq rfl rfl rfl
    · exact h _

end Counts

variable {action : ListAction α ι}

theorem effect_counts [BEq α] (hcallable : Callable v.alive v.allocated action)
    (halive : v.alive this = true) (hkept : action ≠ .destroy this) :
    Counts this v (v.effect action) := by
  have hone : ∀ (v : Lists α ι) (other : ι) (l : List ℕ), Counts this v (v.put other l 1) :=
    fun v other l => .put other l fun _ => Nat.one_pos
  have hmade : ∀ value : α, Counts this v (v.made value) := fun value => .of_eq rfl rfl rfl
  cases action with
  | construct other => exact (Counts.constructed (ne_of_alive ⟨hcallable, halive⟩)).answered _
  | copyConstruct other from' fault =>
    refine .ofCopy (.answered (.trans (.constructed (ne_of_alive ⟨hcallable.1, halive⟩)) ?_) _)
    exact .copyTo (update_self ..)
  | moveConstruct other from' =>
    have hne := ne_of_alive ⟨hcallable.1, halive⟩
    exact Counts.answered ((Counts.constructed hne).trans ((Counts.put_of_ne hne _ 0).trans
      (hone _ from' []))) _
  | destroy other =>
    have hne : this ≠ other := fun h => hkept (h ▸ rfl)
    exact .of_eq (update_of_ne hne ..) (update_of_ne hne ..)
      (update_of_ne hne ..)
  | copyAssign other from' fault =>
    rw [Lists.effect]
    split
    · exact .of_eq rfl rfl rfl
    · exact Counts.answered ((hone v other []).trans (.copyTo (sequence_put_self ..))) _
  | moveAssign other from' =>
    rw [Lists.effect]
    split
    · exact .of_eq rfl rfl rfl
    · rw [Lists.moveTo, put_put]
      exact Counts.answered ((hone v other _).trans (hone _ from' [])) _
  | makeNode value fault => exact .ofCopy ((hmade value).answered _)
  | addFirst other value fault =>
    exact .ofCopy (.answered ((hmade value).trans (hone _ other _)) _)
  | addFirstNode other node => exact .ofNewNode fun n => (hone v other _).answered _
  | addLast other value fault =>
    exact .ofCopy (.answered ((hmade value).trans (hone _ other _)) _)
  | addLastNode other node => exact .ofNewNode fun n => (hone v other _).answered _
  | addBefore other node value fault =>
    exact .ofNode fun n => .ofCopy (.answered ((hmade value).trans (hone _ other _)) _)
  | addBeforeNode other node newNode =>
    exact .ofNode fun n => .ofNewNode fun m => (hone v other _).answered _
  | addAfter other node value fault =>
    exact .ofNode fun n => .ofCopy (.answered ((hmade value).trans (hone _ other _)) _)
  | addAfterNode other node newNode =>
    exact .ofNode fun n => .ofNewNode fun m => (hone v other _).answered _
  | removeFirst other =>
    rw [Lists.effect, Lists.ofNonempty]
    split
    · exact .of_eq rfl rfl rfl
    · exact (hone v other _).answered _
  | removeLast other =>
    rw [Lists.effect, Lists.ofNonempty]
    split
    · exact .of_eq rfl rfl rfl
    · exact (hone v other _).answered _
  | remove other value =>
    rw [Lists.effect]
    split
    · exact (hone v other _).answered _
    · exact .of_eq rfl rfl rfl
  | removeNode other node => exact .ofNode fun n => (hone v other _).answered _
  | clear other => exact (hone v other _).answered _

def OnlyThrows (v v' : Lists α ι) : Prop :=
  ∀ e, v'.answer = .threw e → v' = v.answered (.threw e)

omit [DecidableEq ι] in
theorem onlyThrows_threw (e : Exception) : OnlyThrows v (v.answered (.threw e)) := by
  intro e' h
  exact congrArg v.answered h

omit [DecidableEq ι] in
theorem onlyThrows_ofNode
    (h : ∀ n, OnlyThrows v (change n)) : OnlyThrows v (v.ofNode this node change) := by
  unfold Lists.ofNode
  split
  · exact onlyThrows_threw _
  · split
    · exact h _
    · exact onlyThrows_threw _

omit [DecidableEq ι] in
theorem onlyThrows_ofNewNode
    (h : ∀ n, OnlyThrows v (change n)) : OnlyThrows v (v.ofNewNode node change) := by
  unfold Lists.ofNewNode
  split
  · exact onlyThrows_threw _
  · split
    · exact onlyThrows_threw _
    · exact h _

omit [DecidableEq ι] in
theorem onlyThrows_ofNonempty {change : Lists α ι} (h : OnlyThrows v change) :
    OnlyThrows v (v.ofNonempty this change) := by
  unfold Lists.ofNonempty
  split
  · exact onlyThrows_threw _
  · exact h

omit [DecidableEq ι] in
theorem onlyThrows_ofCopy {fault : Option Exception} {change : Lists α ι}
    (h : OnlyThrows v change) : OnlyThrows v (v.ofCopy fault change) := by
  cases fault with
  | none => exact h
  | some e => exact onlyThrows_threw e

theorem effect_onlyThrows [BEq α] (action : ListAction α ι)
    (hassign : ∀ this other fault, action ≠ .copyAssign this other fault) :
    OnlyThrows v (v.effect action) := by
  cases action with
  | construct | moveConstruct | destroy | clear => exact nofun
  | copyAssign this other fault => exact absurd rfl (hassign this other fault)
  | moveAssign this other | remove this value =>
    rw [Lists.effect]
    split <;> exact nofun
  | copyConstruct | makeNode | addFirst | addLast => exact onlyThrows_ofCopy nofun
  | addFirstNode this node | addLastNode this node => exact onlyThrows_ofNewNode fun n => nofun
  | addBefore this node value fault | addAfter this node value fault =>
    exact onlyThrows_ofNode fun n => onlyThrows_ofCopy nofun
  | removeNode this node => exact onlyThrows_ofNode fun n => nofun
  | addBeforeNode this node newNode | addAfterNode this node newNode =>
    exact onlyThrows_ofNode fun n => onlyThrows_ofNewNode fun m => nofun
  | removeFirst this | removeLast this => exact onlyThrows_ofNonempty nofun

omit [DecidableEq ι] in
theorem holds_unique (h : Holds s v) (h' : Holds s' v) : s = s' := by
  have hforward := fun this => (h.forward this).agree (h'.forward this)
  have hbackward := fun this => (h.backward this).agree (h'.backward this)
  have howner : s.owner = s'.owner := by
    funext n
    exact Option.ext fun this => (h.owner n this).trans (h'.owner n this).symm
  have hlinks : ∀ n, s.next n = s'.next n ∧ s.prev n = s'.prev n := by
    intro n
    cases hn : s.owner n with
    | none =>
      obtain ⟨hnext, hprev⟩ := h.detached n hn
      obtain ⟨hnext', hprev'⟩ := h'.detached n (howner ▸ hn)
      exact ⟨hnext.trans hnext'.symm, hprev.trans hprev'.symm⟩
    | some this => grind [h.owner]
  have hlist : s.list = s'.list := by
    funext this
    have hcount := (h.count this).trans (h'.count this).symm
    have hversion := (h.version this).trans (h'.version this).symm
    have hhead := (hforward this).1
    have htail := (hbackward this).1
    cases hl : s.list this
    cases hl' : s'.list this
    grind
  have hitem := h.item.trans h'.item.symm
  have hallocated := h.allocated.trans h'.allocated.symm
  have halive := h.alive.trans h'.alive.symm
  have hnext : s.next = s'.next := funext fun n => (hlinks n).1
  have hprev : s.prev = s'.prev := funext fun n => (hlinks n).2
  cases s
  cases s'
  grind

/-! ## Histories -/

omit [DecidableEq ι] in
theorem empty_tracks : Tracks (LinkedListHeap.empty : LinkedListHeap α ι) .empty where
  head _ := rfl
  tail _ := rfl
  count _ := rfl
  version _ := rfl
  linked _ := trivial
  nodup _ := List.nodup_nil
  countable _ := Nat.zero_le _
  owner _ _ := ⟨nofun, nofun⟩
  detached _ _ := ⟨rfl, rfl⟩
  made _ := ⟨nofun, nofun⟩
  mem_made _ _ := nofun
  item := rfl
  allocated := rfl
  alive := rfl
  dead _ _ := rfl

def Follows (w : ListWorld α ι) (v : Lists α ι) : Prop := Tracks w.heap v ∧ w.answer = v.answer

variable {w : ListWorld α ι}

theorem step_follows [BEq α] (h : Follows w v) (action : ListAction α ι) :
    (∃ w' v', step w action = some w' ∧ Lists.step v action = some v' ∧ Follows w' v') ∨
      (step w action = none ∧ ∀ v', Lists.step v action = some v' → ¬ v'.Countable) := by
  obtain ⟨hs, -⟩ := h
  rw [step, Lists.step, hs.alive, hs.allocated]
  by_cases hcallable : Callable v.alive v.allocated action
  · rw [if_pos hcallable, if_pos hcallable]
    obtain ⟨s', hafter, hs'⟩ | ⟨hfull, hafter⟩ := program_does hs action hcallable
    · exact .inl ⟨_, _, hafter, rfl, hs', rfl⟩
    · refine .inr ⟨hafter, fun v' hv' => ?_⟩
      grind
  · simp [hcallable]

theorem step_of_countable [BEq α] (h : Follows w v) (action : ListAction α ι)
    (hcallable : Callable v.alive v.allocated action) (hcountable : (v.effect action).Countable) :
    ∃ w', step w action = some w' ∧ Follows w' (v.effect action) := by
  have hone : Lists.step v action = some (v.effect action) := if_pos hcallable
  obtain ⟨w', v', hstep, hv', hw'⟩ | ⟨-, hfull⟩ := step_follows h action
  · grind
  · exact absurd hcountable (hfull _ hone)

variable {w' : ListWorld α ι}

theorem run_follows [BEq α] (h : Follows w v) (as : List (ListAction α ι))
    (hrun : run step w as = some w') : ∃ v', run Lists.step v as = some v' ∧ Follows w' v' := by
  refine run_simulated (fun w action w' v h hone => ?_) as h hrun
  obtain ⟨w'', v', hone', hv', hw''⟩ | ⟨hnone, -⟩ := step_follows h action
  · grind
  · cases hone.symm.trans hnone

theorem step_counts [BEq α] (halive : v.alive this = true)
    (hkept : action ≠ .destroy this) (hone : Lists.step v action = some v') : Counts this v v' := by
  grind [Lists.step, effect_counts]

theorem run_counts [BEq α] (as : List (ListAction α ι)) (halive : v.alive this = true)
    (hkept : .destroy this ∉ as) (hrun : run Lists.step v as = some v') : Counts this v v' := by
  have hsteps : Along Lists.step (fun _ action => action ≠ .destroy this) v as :=
    along_of_forall (fun action hmem _ => ne_of_mem_of_not_mem hmem hkept) v
  refine run_holds_along (I := fun u => Counts this v u) (fun u action u' hu hne hone => ?_) as
    (.of_eq rfl rfl rfl) hsteps hrun
  exact hu.trans (step_counts (hu.alive.trans halive) hne hone)

theorem step_throws [BEq α] (h : Follows w v)
    (hassign : ∀ this other fault, action ≠ .copyAssign this other fault)
    (hone : step w action = some w') (hthrew : w'.answer = .threw e) :
    w'.heap = w.heap := by
  obtain ⟨w'', v', hone', hv', hs', hanswer⟩ | ⟨hnone, -⟩ := step_follows h action
  · obtain rfl := Option.some.inj (hone.symm.trans hone')
    rw [Lists.step] at hv'
    split at hv'
    · obtain rfl := Option.some.inj hv'
      rw [effect_onlyThrows action hassign e (hanswer.symm.trans hthrew)] at hs'
      exact holds_unique (hs'.holds) (h.1.answered _).holds
    · cases hv'
  · cases hone.symm.trans hnone

/-! ## Enumerators -/

omit [DecidableEq ι] in
theorem stems_kept {e e' : LinkedListEnumerator ι} (h : Stems α e e') :
    e'.list_ = e.list_ ∧ e'.version_ = e.version_ := by
  induction h with
  | refl => exact ⟨rfl, rfl⟩
  | @moveNext e' e'' s b _ hmoved ih =>
    unfold moveNext at hmoved
    split at hmoved
    · cases hmoved
    · grind
  | reset _ hreset ih => grind [reset]

omit [DecidableEq ι] in
theorem moveNext_throws_iff (e : LinkedListEnumerator ι) (s : LinkedListHeap α ι) :
    e.moveNext s = .error collectionModified ↔
      e.version_ ≠ (s.list e.list_).version_ := by
  unfold moveNext
  split
  · next hne => exact ⟨fun _ => hne, fun _ => rfl⟩
  · grind

omit [DecidableEq ι] in
theorem reset_throws_iff (e : LinkedListEnumerator ι) (s : LinkedListHeap α ι) :
    e.reset s = .error collectionModified ↔
      e.version_ ≠ (s.list e.list_).version_ := by grind [reset]

theorem ofNat_eq_ofNat_add_iff (n k : ℕ) : BitVec.ofNat 64 n = BitVec.ofNat 64 (n + k) ↔ 2 ^ 64 ∣ k := by
  rw [← BitVec.toNat_inj, BitVec.toNat_ofNat, BitVec.toNat_ofNat]
  omega

/-- **Every history of any number of lists and handles is one of their sequences**: each call does
to the sequences what it is for, the heap holds them, and a call that throws leaves it as it is,
except an assignment, which leaves the copies it has made; a call is defined as long as no list
gets more nodes than it can count.  What changes a sequence is
counted, and an enumerator throws unless the number of the changes of its list since it was made is
a multiple of `2 ^ 64`. -/
theorem sequences_followed [BEq α] (as : List (ListAction α ι)) {w : ListWorld α ι}
    (hrun : run step start as = some w) :
    ∃ v, run Lists.step .empty as = some v ∧ Holds w.heap v ∧ w.answer = v.answer ∧
      (∀ action v', Lists.step v action = some v' → v'.Countable → ∃ w', step w action = some w') ∧
      (∀ action w' e, (∀ this other fault, action ≠ .copyAssign this other fault) →
        step w action = some w' → w'.answer = .threw e → w'.heap = w.heap) ∧
      ∀ this, v.alive this = true →
        (∀ action v', Lists.step v action = some v' → action ≠ .destroy this →
          v.changes this ≤ v'.changes this ∧
            (v'.sequence this ≠ v.sequence this → v.changes this < v'.changes this)) ∧
        ∀ bs w', .destroy this ∉ bs → run step w bs = some w' →
          ∃ v' k, run Lists.step v bs = some v' ∧ v'.changes this = v.changes this + k ∧
            ∀ e, Stems α (getEnumerator this w.heap) e →
              (e.moveNext w'.heap = .error collectionModified ↔
                ¬ 2 ^ 64 ∣ k) ∧
              (e.reset w'.heap = .error collectionModified ↔
                ¬ 2 ^ 64 ∣ k) := by
  obtain ⟨v, hv, hw⟩ := run_follows ⟨empty_tracks, rfl⟩ as hrun
  refine ⟨v, hv, hw.1.holds, hw.2, fun action v' hv' hcountable => ?_,
    fun action w' e hassign hone hthrew => step_throws hw hassign hone hthrew, fun this halive => ⟨?_, ?_⟩⟩
  · obtain ⟨w', -, hone, -⟩ | ⟨-, hfull⟩ := step_follows hw action
    · exact ⟨w', hone⟩
    · exact absurd hcountable (hfull v' hv')
  · intro action v' hv' hkept
    have hcounts := step_counts halive hkept hv'
    exact ⟨hcounts.changes, hcounts.sequence⟩
  · intro bs w' hkept hbs
    obtain ⟨v', hv', hw'⟩ := run_follows hw bs hbs
    obtain ⟨k, hk⟩ := Nat.exists_eq_add_of_le (run_counts bs halive hkept hv').changes
    refine ⟨v', k, hv', hk, fun e hstems => ?_⟩
    obtain ⟨hlist, hversion⟩ := stems_kept hstems
    have hsame : e.version_ ≠ (w'.heap.list e.list_).version_ ↔ ¬ 2 ^ 64 ∣ k := by
      rw [hlist, hversion]
      change (w.heap.list this).version_ ≠ (w'.heap.list this).version_ ↔ _
      rw [hw.1.version, hw'.1.version, hk, Ne, ofNat_eq_ofNat_add_iff]
    exact ⟨(moveNext_throws_iff e w'.heap).trans hsame, (reset_throws_iff e w'.heap).trans hsame⟩

def migration : List (ListAction ℤ Bool) :=
  [.construct false, .construct true, .addLast false 1 none, .addLast false 2 none,
    .removeNode false (some 0), .addFirstNode true (some 0)]

/-- The theorem on a run in which a node changes from one list to the other. -/
theorem sequences_followed_migration : ∃ w v, run step start migration = some w ∧
    run Lists.step .empty migration = some v ∧ Holds w.heap v := by
  obtain ⟨w, hw⟩ := Option.isSome_iff_exists.mp
    (by decide : (run step start migration).isSome = true)
  obtain ⟨v, hv, hholds, -⟩ := sequences_followed migration hw
  exact ⟨w, v, hw, hv, hholds⟩

def bounce : List (ListAction ℤ Unit) := [.removeNode () (some 0), .addLastNode () (some 0)]

variable {w : ListWorld ℤ Unit} {v : Lists ℤ Unit}

theorem bounce_follows (h : Follows w v)
    (halive : v.alive () = true) (hsequence : v.sequence () = [0]) :
    ∃ w' v', run step w bounce = some w' ∧ Follows w' v' ∧ v'.alive () = true ∧
      v'.sequence () = [0] ∧ v'.changes () = v.changes () + 2 := by
  have hhandle : IsHandle v.allocated (some 0) := by
    rintro n ⟨⟩
    exact h.1.mem_made 0 () (by rw [hsequence]; exact List.mem_singleton_self 0)
  have hremove : v.effect (.removeNode () (some 0)) = (v.put () [] 1).answered .done := by
    change (if 0 ∈ v.sequence () then _ else _) = _
    rw [hsequence, if_pos (List.mem_singleton_self 0)]
    rfl
  obtain ⟨w₁, hrun₁, h₁⟩ := step_of_countable h (.removeNode () (some 0)) ⟨halive, hhandle⟩
    (by rw [hremove]; exact fun _ => Nat.zero_le _)
  rw [hremove] at h₁
  have hadd : ((v.put () [] 1).answered .done).effect (.addLastNode () (some 0)) =
      (((v.put () [] 1).answered .done).put () [0] 1).answered .done :=
    if_neg fun ⟨_, hmem⟩ => List.not_mem_nil hmem
  obtain ⟨w₂, hrun₂, h₂⟩ := step_of_countable h₁ (.addLastNode () (some 0)) ⟨halive, hhandle⟩
    (by rw [hadd]; exact fun _ => (by decide : 1 ≤ intcsMax))
  rw [hadd] at h₂
  exact ⟨w₂, _, run_cons_eq_some.mpr ⟨w₁, hrun₁, run_cons_eq_some.mpr ⟨w₂, hrun₂, rfl⟩⟩, h₂, halive,
    rfl, rfl⟩

theorem bounces_follow (n : ℕ) (h : Follows w v)
    (halive : v.alive () = true) (hsequence : v.sequence () = [0]) :
    ∃ w' v', run step w (List.replicate n bounce).flatten = some w' ∧ Follows w' v' ∧
      v'.changes () = v.changes () + 2 * n := by
  induction n generalizing w v with
  | zero => exact ⟨w, v, rfl, h, rfl⟩
  | succ n ih =>
    obtain ⟨w₁, v₁, hrun, h₁, halive₁, hsequence₁, hchanges₁⟩ := bounce_follows h halive hsequence
    obtain ⟨w', v', hruns, h', hchanges⟩ := ih h₁ halive₁ hsequence₁
    refine ⟨w', v', ?_, h', ?_⟩
    · grind [run_append]
    · omega

/-- A node is taken out of a list and put in again `2 ^ 63` times, and an enumerator that was made
before goes on. -/
theorem modified_goes_on : ∃ (w w' : ListWorld ℤ Unit) (e : LinkedListEnumerator Unit),
    run step start [.construct (), .addLast () 7 none] = some w ∧
      run step w (List.replicate (2 ^ 63) bounce).flatten = some w' ∧
      (getEnumerator () w.heap).moveNext w'.heap = .ok (true, e) := by
  obtain ⟨w, hw⟩ : ∃ w, run step start ([.construct (), .addLast () 7 none] : List (ListAction ℤ Unit)) =
    some w := ⟨_, rfl⟩
  obtain ⟨v, -, h⟩ := run_follows ⟨empty_tracks, rfl⟩ _ hw
  have hone : w.heap.alive () = true ∧ (w.heap.list ()).head_ = some 0 ∧ w.heap.next 0 = none := by
    obtain rfl := Option.some.inj hw
    exact ⟨rfl, rfl, rfl⟩
  obtain ⟨halive, hhead, hnext⟩ := hone
  have hsequence : v.sequence () = [0] :=
    (h.1.holds.forward ()).unique ⟨hhead, hnext⟩
  obtain ⟨w', v', hrun, h', hchanges⟩ := bounces_follow (2 ^ 63) h
    ((congrFun h.1.alive ()).symm.trans halive) hsequence
  have hversion : (w.heap.list ()).version_ = (w'.heap.list ()).version_ := by
    rw [h.1.version, h'.1.version, hchanges, ofNat_eq_ofNat_add_iff]
    exact Dvd.intro 1 rfl
  refine ⟨w, w', ⟨(), (w.heap.list ()).version_, some 0, true, .current⟩, hw, hrun, ?_⟩
  rw [getEnumerator, hhead]
  exact if_neg (not_not.mpr hversion)

/-- A list of one value and one of two. -/
def twoLists : List (ListAction ℤ Bool) :=
  [.construct false, .construct true, .addLast false 1 none, .addLast true 2 none,
    .addLast true 3 none]

/-- Copying the second value throws, and the list has lost its own value for the first. -/
theorem assignment_throws : ∃ w w', run step start twoLists = some w ∧
    step w (.copyAssign false true (some (1, .format ""))) = some w' ∧
    w'.answer = .threw (.format "") ∧ (w.heap.list false).head_ = some 0 ∧
    (w'.heap.list false).head_ = some 3 ∧ (w'.heap.list false).count_ = 1 :=
  ⟨_, _, rfl, rfl, rfl, rfl, rfl, rfl⟩

/-- A call that throws has changed a list, and an enumerator of a modified list goes on. -/
theorem not_sequences_followed :
    (∃ (w w' : ListWorld ℤ Bool) (action : ListAction ℤ Bool) (e : Exception),
      run step start twoLists = some w ∧ step w action = some w' ∧ w'.answer = .threw e ∧
        (w'.heap.list false).head_ ≠ (w.heap.list false).head_) ∧
    ∃ (w w' : ListWorld ℤ Unit) (e : LinkedListEnumerator Unit),
      run step start [.construct (), .addLast () 7 none] = some w ∧
        run step w (List.replicate (2 ^ 63) bounce).flatten = some w' ∧
        (getEnumerator () w.heap).moveNext w'.heap = .ok (true, e) := by
  obtain ⟨w, w', hrun, hstep, hanswer, hhead, hhead', -⟩ := assignment_throws
  refine ⟨⟨w, w', _, _, hrun, hstep, hanswer, ?_⟩, modified_goes_on⟩
  rw [hhead, hhead']
  decide

end SharpRuntime.Analysis.ListHistories
