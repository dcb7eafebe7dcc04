import SharpRuntime.Interface.ListHistory

/-!
# The lists behind `LinkedList`

The heap follows the sequences of its lists.  What inserts a node, takes one out, or empties a list
changes one list, the links of its nodes and of the node, and nothing else (`Tracks.change`); what
adopts the nodes of another list changes no link.
-/

set_option autoImplicit false

namespace SharpRuntime.Analysis.LinkedLists

open Machine Model Interface.ListHistory
open LinkedList LinkedListHeap
open Function
open Lists

variable {α ι : Type}

/-- The heap holds the lists, said by the links of each list; a list that is not there has no nodes,
and the nodes made are those with values. -/
structure Tracks (s : LinkedListHeap α ι) (v : Lists α ι) : Prop where
  head : ∀ this, (s.list this).head_ = (v.sequence this).head?
  tail : ∀ this, (s.list this).tail_ = (v.sequence this).getLast?
  count : ∀ this, (s.list this).count_ = (v.sequence this).length
  version : ∀ this, (s.list this).version_ = BitVec.ofNat 64 (v.changes this)
  linked : ∀ this, Linked s.next s.prev none (v.sequence this) none
  nodup : ∀ this, (v.sequence this).Nodup
  countable : v.Countable
  owner : ∀ n this, s.owner n = some this ↔ n ∈ v.sequence this
  detached : ∀ n, s.owner n = none → s.next n = none ∧ s.prev n = none
  made : ∀ n, (v.item n).isSome = true ↔ n < v.allocated
  mem_made : ∀ n this, n ∈ v.sequence this → n < v.allocated
  item : s.item = v.item
  allocated : s.allocated = v.allocated
  alive : s.alive = v.alive
  dead : ∀ this, v.alive this = false → v.sequence this = []

variable {s s' : LinkedListHeap α ι} {v : Lists α ι}

theorem Tracks.holds (h : Tracks s v) : Holds s v where
  forward this := by
    rw [h.head]
    exact (h.linked this).visits
  backward this := by
    rw [h.tail]
    exact (h.linked this).visits_reverse
  count := h.count
  owner := h.owner
  detached := h.detached
  item := h.item
  allocated := h.allocated
  alive := h.alive
  version := h.version

theorem Tracks.answered [DecidableEq ι] (h : Tracks s v) (answer : ListAnswer) :
    Tracks s (v.answered answer) :=
  ⟨h.head, h.tail, h.count, h.version, h.linked, h.nodup, h.countable, h.owner, h.detached,
    h.made, h.mem_made,
    h.item, h.allocated, h.alive, h.dead⟩

variable {n : ℕ}

theorem Tracks.free (h : Tracks s v) (hfree : s.owner n = none) (this : ι) :
    n ∉ v.sequence this := by
  intro hmem
  rw [(h.owner n this).mpr hmem] at hfree
  cases hfree

theorem Tracks.unowned (h : Tracks s v) (hnone : ∀ this, n ∉ v.sequence this) :
    s.owner n = none := by
  cases howner : s.owner n with
  | none => rfl
  | some this => exact absurd ((h.owner n this).mp howner) (hnone this)

theorem Tracks.disjoint (h : Tracks s v) {this other : ι} (hthis : n ∈ v.sequence this)
    (hother : n ∈ v.sequence other) : other = this := by
  have hboth := (h.owner n other).mpr hother
  rw [(h.owner n this).mpr hthis] at hboth
  exact (Option.some.inj hboth).symm

section Change

variable [DecidableEq ι]

@[simp] theorem sequence_put_self (this : ι) (l : List ℕ) (k : ℕ) (v : Lists α ι) :
    (v.put this l k).sequence this = l :=
  update_self ..

variable {this other : ι}

@[simp] theorem sequence_put_of_ne (h : other ≠ this) (l : List ℕ) (k : ℕ)
    (v : Lists α ι) : (v.put this l k).sequence other = v.sequence other :=
  update_of_ne h ..

@[simp] theorem changes_put_self (this : ι) (l : List ℕ) (k : ℕ) (v : Lists α ι) :
    (v.put this l k).changes this = v.changes this + k :=
  update_self ..

@[simp] theorem changes_put_of_ne (h : other ≠ this) (l : List ℕ) (k : ℕ)
    (v : Lists α ι) : (v.put this l k).changes other = v.changes other :=
  update_of_ne h ..

variable {l : List ℕ}

/-- What holds of every sequence after one has been replaced. -/
theorem forall_put {k : ℕ} (P : ι → List ℕ → Prop) (hself : P this l)
    (hother : ∀ other, other ≠ this → P other (v.sequence other)) (other : ι) :
    P other ((v.put this l k).sequence other) :=
  (forall_update_iff v.sequence P).mpr ⟨hself, hother⟩ other

/-- One list is relinked and the others stay: what every structural operation does. -/
theorem Tracks.change (hs : Tracks s v) {owner' : ℕ → Option ι}
    {next' prev' : ℕ → Option ℕ} {fields : LinkedListFields} {k : ℕ}
    (hnodup : l.Nodup) (hlinked : Linked next' prev' none l none)
    (hcountable : l.length ≤ intcsMax)
    (hhead : fields.head_ = l.head?) (htail : fields.tail_ = l.getLast?)
    (hcount : fields.count_ = l.length)
    (hversion : fields.version_ = BitVec.ofNat 64 (v.changes this + k))
    (hnew : ∀ n ∈ l, n ∉ v.sequence this → s.owner n = none ∧ n < v.allocated)
    (howner : ∀ n ∈ l, owner' n = some this)
    (hgone : ∀ n ∈ v.sequence this, n ∉ l → owner' n = none ∧ next' n = none ∧ prev' n = none)
    (hframe : ∀ n, n ∉ v.sequence this → n ∉ l →
      owner' n = s.owner n ∧ next' n = s.next n ∧ prev' n = s.prev n)
    (hdead : v.alive this = false → l = []) :
    Tracks { s with
      owner := owner'
      next := next'
      prev := prev'
      list := update s.list this fields } (v.put this l k) := by
  have hself : update s.list this fields this = fields := update_self ..
  have hlist : ∀ other, other ≠ this → update s.list this fields other = s.list other :=
    fun other hne => update_of_ne hne ..
  -- A node of another list is neither a node of this list nor a new one.
  have hother : ∀ n other, other ≠ this → n ∈ v.sequence other → n ∉ v.sequence this ∧ n ∉ l := by
    intro n other hne hmem
    have hthis : n ∉ v.sequence this := fun h => hne (hs.disjoint h hmem)
    exact ⟨hthis, fun hl => hs.free (hnew n hl hthis).1 other hmem⟩
  have hmade : ∀ n ∈ l, n < v.allocated := by grind [hs.mem_made]
  constructor
  · grind [sequence_put_self, sequence_put_of_ne, hs.head]
  · grind [sequence_put_self, sequence_put_of_ne, hs.tail]
  · grind [sequence_put_self, sequence_put_of_ne, hs.count]
  · grind [changes_put_self, changes_put_of_ne, hs.version]
  · refine forall_put (fun _ l => Linked next' prev' none l none) hlinked fun other hne => ?_
    refine (hs.linked other).congr (fun n hn => ?_) fun n hn => ?_
    · exact (hframe n (hother n other hne hn).1 (hother n other hne hn).2).2.1
    · exact (hframe n (hother n other hne hn).1 (hother n other hne hn).2).2.2
  · exact forall_put (fun _ l => l.Nodup) hnodup fun other _ => hs.nodup other
  · exact forall_put (fun _ l => l.length ≤ intcsMax) hcountable fun other _ => hs.countable other
  · intro n other
    dsimp only
    by_cases hl : n ∈ l
    · rw [howner n hl]
      by_cases hne : other = this
      · grind [sequence_put_self]
      · grind [sequence_put_of_ne]
    · by_cases hthis : n ∈ v.sequence this
      · rw [(hgone n hthis hl).1]
        refine iff_of_false (fun h => by cases h) ?_
        by_cases hne : other = this
        · subst hne
          rw [sequence_put_self]
          exact hl
        · rw [sequence_put_of_ne hne]
          exact fun h => (hother n other hne h).1 hthis
      · rw [(hframe n hthis hl).1, hs.owner n other]
        by_cases hne : other = this
        · grind [sequence_put_self]
        · rw [sequence_put_of_ne hne]
  · intro n hnone
    dsimp only at hnone ⊢
    by_cases hl : n ∈ l
    · rw [howner n hl] at hnone
      cases hnone
    · grind [hs.detached]
  · exact hs.made
  · exact fun n => forall_put (fun _ l => n ∈ l → n < v.allocated) (hmade n)
      fun other _ => hs.mem_made n other
  · exact hs.item
  · exact hs.allocated
  · exact hs.alive
  · exact forall_put (fun other l => v.alive other = false → l = []) hdead
      fun other _ => hs.dead other

/-! ## Inserting -/

def counted (this : ι) (s : LinkedListHeap α ι) : LinkedListHeap α ι :=
  s.setList this fun l => { l with count_ := l.count_ + 1, version_ := l.version_ + 1 }

theorem countInserted_eq (this : ι) (s : LinkedListHeap α ι) : countInserted this s =
    if (s.list this).count_ < intcsMax then .ok () (counted this s) else .error .undefined s := by
  rw [countInserted, get_bind]
  by_cases hroom : (s.list this).count_ < intcsMax
  · rw [if_pos hroom, if_pos hroom]
    rfl
  · rw [if_neg hroom, if_neg hroom]
    rfl

def Inserts (v : Lists α ι) (this : ι) (l : List ℕ)
    (r : EStateM.Result ListFault (LinkedListHeap α ι) Unit) : Prop :=
  (l.length ≤ intcsMax ∧ ∃ s', r = .ok () s' ∧ Tracks s' (v.put this l 1)) ∨
    (intcsMax < l.length ∧ ∃ s', r = .error .undefined s')

theorem inserts_of_link {link : LinkedListHeap α ι → LinkedListHeap α ι}
    (hs : Tracks s v) (hcount : ((link s).list this).count_ = (s.list this).count_)
    (hlength : l.length = (v.sequence this).length + 1)
    (htracks : (v.sequence this).length < intcsMax →
      Tracks (counted this (link s)) (v.put this l 1)) :
    Inserts v this l ((modify link >>= fun _ => countInserted this) s) := by
  rw [modify_bind, countInserted_eq, hcount, hs.count]
  by_cases hroom : ((v.sequence this).length : ℤ) < intcsMax
  · rw [if_pos hroom]
    exact .inl ⟨by omega, _, rfl, htracks (Int.ofNat_lt.mp hroom)⟩
  · rw [if_neg hroom]
    exact .inr ⟨by omega, _, rfl⟩

variable {m : ℕ}

theorem linkLast_eq (hprev : s.prev m = none) : counted this (linkLast this m s) = { s with
    owner := update s.owner m (some this)
    next := fun n => if (s.list this).tail_ = some n then some m else s.next n
    prev := update s.prev m (s.list this).tail_
    list := update s.list this {
      head_ := if (s.list this).tail_ = none then some m else (s.list this).head_
      tail_ := some m
      count_ := (s.list this).count_ + 1
      version_ := (s.list this).version_ + 1 } } := by
  cases htail : (s.list this).tail_ with
  | none =>
    have hsame : update s.prev m none = s.prev := by rw [← hprev, update_eq_self]
    simp [counted, linkLast, htail, setTail, setHead, setList, setOwner, hsame]
  | some z =>
    have hnext : update s.next z (some m) = fun n => if z = n then some m else s.next n := by
      funext n
      grind
    simp [counted, linkLast, htail, setTail, setList, setOwner, setNext, setPrev, hnext]

variable {p : ℕ}

theorem linkBefore_eq (hne : s.prev p ≠ some m) : counted this (linkBefore this p m s) = { s with
      owner := update s.owner m (some this)
      next := fun n => if n = m then some p else if s.prev p = some n then some m else s.next n
      prev := update (update s.prev m (s.prev p)) p (some m)
      list := update s.list this {
        head_ := if s.prev p = none then some m else (s.list this).head_
        tail_ := (s.list this).tail_
        count_ := (s.list this).count_ + 1
        version_ := (s.list this).version_ + 1 } } := by
  cases hprev : s.prev p with
  | none =>
    have hnext : update s.next m (some p) = fun n => if n = m then some p else s.next n := by
      funext n
      rw [update_apply]
    simp [counted, linkBefore, hprev, setHead, setList, setOwner, setNext, setPrev, hnext]
  | some z =>
    have hnext : update (update s.next m (some p)) z (some m) =
        fun n => if n = m then some p else if z = n then some m else s.next n := by grind
    simp [counted, linkBefore, hprev, setList, setOwner, setNext, setPrev, hnext]

theorem unlinked_eq {this : ι} {m : ℕ} : unlinked this m s = { s with
    owner := update s.owner m none
    next := fun n => if n = m then none else if s.prev m = some n then s.next m else s.next n
    prev := fun n => if n = m then none else if s.next m = some n then s.prev m else s.prev n
    list := update s.list this {
      head_ := if s.prev m = none then s.next m else (s.list this).head_
      tail_ := if s.next m = none then s.prev m else (s.list this).tail_
      count_ := (s.list this).count_ - 1
      version_ := (s.list this).version_ + 1 } } := by
  have hupdate : ∀ (f : ℕ → Option ℕ) (z : ℕ) (x : Option ℕ),
      update (update f z x) m none =
        fun n => if n = m then none else if z = n then x else f n := by
    intro f z x
    funext n
    grind
  have hone : ∀ f : ℕ → Option ℕ, update f m none =
      fun n => if n = m then none else f n := by
    intro f
    funext n
    rw [update_apply]
  cases hprev : s.prev m <;> cases hnext : s.next m <;>
    simp [unlinked, hprev, hnext, setTail, setHead, setList, setOwner, setNext, setPrev, hupdate, hone]

theorem bitVec_succ (n : ℕ) : BitVec.ofNat 64 n + 1 = BitVec.ofNat 64 (n + 1) :=
  (BitVec.ofNat_add n 1).symm

theorem linkLast_tracks (hs : Tracks s v) (hfree : s.owner m = none)
    (hmade : m < v.allocated) (halive : v.alive this = true)
    (hroom : (v.sequence this).length < intcsMax) :
    Tracks (counted this (linkLast this m s)) (v.put this (v.sequence this ++ [m]) 1) := by
  have hm := hs.free hfree this
  obtain ⟨hnext, hprev⟩ := hs.detached m hfree
  have hlast := hs.tail this
  rw [linkLast_eq hprev, hlast]
  refine hs.change ?nodup ?linked ?countable ?head ?tail ?count ?version ?new ?owner ?gone ?frame ?dead
  case nodup =>
    refine List.nodup_append.mpr ⟨hs.nodup this, List.nodup_singleton m, ?_⟩
    rintro a ha b hb rfl
    exact hm (List.mem_singleton.mp hb ▸ ha)
  case linked =>
    have hlinked : Linked s.next s.prev none (v.sequence this ++ []) none := by
      rw [List.append_nil]
      exact hs.linked this
    refine hlinked.insert (by rw [List.append_nil]; exact hs.nodup this) ?_ ?_ ?_ ?_
    · rw [update_self, Option.or_none]
    · grind
    · grind
    · exact fun n hn => (nomatch hn)
  case countable =>
    grind
  case head =>
    rw [hs.head this]
    cases v.sequence this with
    | nil => rfl
    | cons a l => rw [if_neg (by simp)]; rfl
  case tail => exact List.getLast?_concat.symm
  case count =>
    simp [hs.count this]
  case version =>
    rw [hs.version this, bitVec_succ]
  case new => grind
  case owner => grind [hs.owner]
  case gone =>
    exact fun n hn hgone => absurd (List.mem_append_left _ hn) hgone
  case frame => grind
  case dead =>
    intro hdead
    rw [halive] at hdead
    cases hdead

variable {xs ys : List ℕ}

theorem linkBefore_tracks (hs : Tracks s v)
    (hsequence : v.sequence this = xs ++ p :: ys) (hfree : s.owner m = none)
    (hmade : m < v.allocated) (halive : v.alive this = true)
    (hroom : (v.sequence this).length < intcsMax) :
    Tracks (counted this (linkBefore this p m s)) (v.put this (xs ++ m :: p :: ys) 1) := by
  have hm : m ∉ xs ++ p :: ys := hsequence ▸ hs.free hfree this
  have hnodup : (xs ++ p :: ys).Nodup := hsequence ▸ hs.nodup this
  have hlinked : Linked s.next s.prev none (xs ++ p :: ys) none := hsequence ▸ hs.linked this
  have hprevious : s.prev p = xs.getLast? := by rw [hlinked.prev_eq, Option.or_none]
  have hmxs : m ∉ xs := fun h => hm (List.mem_append_left _ h)
  have hmp : m ≠ p := fun h => hm (by simp [h])
  have hlast : ∀ n, xs.getLast? = some n → n ∈ xs := fun n h => List.mem_of_getLast? h
  have hmem : ∀ n, n ∈ xs ++ m :: p :: ys ↔ n ∈ v.sequence this ∨ n = m := by grind
  rw [linkBefore_eq (by rw [hprevious]; exact fun h => hmxs (hlast m h)), hprevious]
  refine hs.change ?nodup ?linked ?countable ?head ?tail ?count ?version ?new ?owner ?gone ?frame ?dead
  case nodup =>
    grind
  case linked =>
    refine hlinked.insert hnodup ?_ ?_ ?_ ?_
    · rw [update_of_ne hmp, update_self, Option.or_none]
    · rw [if_pos rfl]
      rfl
    · grind
    · grind
  case countable =>
    grind
  case head =>
    rw [hs.head this, hsequence]
    cases xs with
    | nil => rfl
    | cons a l => rw [if_neg (by simp)]; rfl
  case tail =>
    simp [hs.tail this, hsequence]
  case count =>
    simp [hs.count this, hsequence]
    omega
  case version =>
    rw [hs.version this, bitVec_succ]
  case new => grind
  case owner => grind [hs.owner]
  case gone => exact fun n hn hgone => absurd ((hmem n).mpr (.inl hn)) hgone
  case frame => grind
  case dead =>
    intro hdead
    rw [halive] at hdead
    cases hdead

theorem unlinked_tracks (hs : Tracks s v) {this : ι} {m : ℕ} {xs ys : List ℕ}
    (hsequence : v.sequence this = xs ++ m :: ys) :
    Tracks (unlinked this m s) (v.put this (xs ++ ys) 1) := by
  have hnodup : (xs ++ m :: ys).Nodup := hsequence ▸ hs.nodup this
  have hlinked : Linked s.next s.prev none (xs ++ m :: ys) none := hsequence ▸ hs.linked this
  have hprevious : s.prev m = xs.getLast? := by rw [hlinked.prev_eq, Option.or_none]
  have hnext : s.next m = ys.head? := by rw [hlinked.next_eq, Option.or_none]
  have hm : m ∉ xs ++ ys := (List.nodup_cons.mp (List.nodup_middle.mp hnodup)).1
  have hlast : ∀ n, xs.getLast? = some n → n ∈ xs := fun n h => List.mem_of_getLast? h
  have hfirst : ∀ n, ys.head? = some n → n ∈ ys := fun n h => List.mem_of_head? h
  have hmem : ∀ n, n ∈ v.sequence this ↔ n ∈ xs ++ ys ∨ n = m := by grind
  rw [unlinked_eq, hprevious, hnext]
  refine hs.change ?nodup ?linked ?countable ?head ?tail ?count ?version ?new ?owner ?gone ?frame ?dead
  case nodup => exact (List.nodup_cons.mp (List.nodup_middle.mp hnodup)).2
  case linked =>
    refine hlinked.remove hnodup ?_ ?_
    · grind
    · grind
  case countable =>
    have hle := hs.countable this
    grind
  case head =>
    rw [hs.head this, hsequence]
    cases xs with
    | nil => rfl
    | cons a l => rw [if_neg (by simp)]; rfl
  case tail =>
    dsimp only
    rw [hs.tail this, hsequence, List.getLast?_append, List.getLast?_append]
    cases ys with
    | nil => rfl
    | cons a l =>
      rw [List.head?_cons, if_neg (by simp), List.getLast?_cons_cons]
  case count =>
    simp [hs.count this, hsequence]
    omega
  case version =>
    rw [hs.version this, bitVec_succ]
  case new => exact fun n hn hthis => absurd ((hmem n).mpr (.inl hn)) hthis
  case owner => grind [hs.owner]
  case gone => grind
  case frame => grind
  case dead =>
    intro hdead
    have hempty := hs.dead this hdead
    grind

theorem insertLast_inserts (hs : Tracks s v) (hfree : s.owner m = none)
    (hmade : m < v.allocated) (halive : v.alive this = true) :
    Inserts v this (v.sequence this ++ [m]) (insertLast this m s) := by
  refine inserts_of_link hs ?_ (by simp) (linkLast_tracks hs hfree hmade halive)
  cases htail : (s.list this).tail_ <;>
    simp [linkLast, htail, setTail, setHead, setList, setOwner, setNext, setPrev]

theorem insertBefore_inserts (hs : Tracks s v)
    (hsequence : v.sequence this = xs ++ p :: ys) (hfree : s.owner m = none)
    (hmade : m < v.allocated) (halive : v.alive this = true) :
    Inserts v this (xs ++ m :: p :: ys) (insertBefore this p m s) := by
  refine inserts_of_link hs ?_ (by simp [hsequence]; omega)
    (linkBefore_tracks hs hsequence hfree hmade halive)
  cases hprev : s.prev p <;>
    simp [linkBefore, hprev, setHead, setList, setOwner, setNext, setPrev]

theorem insertAfter_inserts (hs : Tracks s v)
    (hsequence : v.sequence this = xs ++ p :: ys) (hfree : s.owner m = none)
    (hmade : m < v.allocated) (halive : v.alive this = true) :
    Inserts v this (xs ++ p :: m :: ys) (insertAfter this p m s) := by
  have hlinked : Linked s.next s.prev none (xs ++ p :: ys) none := hsequence ▸ hs.linked this
  rw [insertAfter, get_bind, hlinked.next_eq, Option.or_none]
  cases ys with
  | nil =>
    have hlast := insertLast_inserts hs hfree hmade halive
    rw [hsequence, List.append_assoc] at hlast
    exact hlast
  | cons q zs =>
    have hbefore := insertBefore_inserts hs
      (show v.sequence this = (xs ++ [p]) ++ q :: zs by rw [hsequence, List.append_assoc]; rfl)
      hfree hmade halive
    rw [List.append_assoc] at hbefore
    exact hbefore

theorem insertFirst_inserts (hs : Tracks s v) (hfree : s.owner m = none)
    (hmade : m < v.allocated) (halive : v.alive this = true) :
    Inserts v this (m :: v.sequence this) (insertFirst this m s) := by
  rw [insertFirst, get_bind, hs.head this]
  cases hsequence : v.sequence this with
  | nil =>
    have hlast := insertLast_inserts hs hfree hmade halive
    rw [hsequence] at hlast
    exact hlast
  | cons p ys =>
    exact insertBefore_inserts hs (show v.sequence this = [] ++ p :: ys from hsequence) hfree hmade
      halive

/-! ## New nodes -/

omit [DecidableEq ι] in
theorem Tracks.allocated_unowned (hs : Tracks s v) : s.owner v.allocated = none :=
  hs.unowned fun this hmem => Nat.lt_irrefl _ (hs.mem_made _ this hmem)

omit [DecidableEq ι] in
theorem makeNode_eq (hs : Tracks s v) (value : α) : makeNode value none s = .ok v.allocated { s with
    item := update s.item v.allocated (some value)
    allocated := v.allocated + 1 } := by
  obtain ⟨hnext, hprev⟩ := hs.detached _ hs.allocated_unowned
  have howner : update s.owner v.allocated none = s.owner := by
    rw [← hs.allocated_unowned, update_eq_self]
  have hnext : update s.next v.allocated none = s.next := by
    rw [← hnext, update_eq_self]
  have hprev : update s.prev v.allocated none = s.prev := by
    rw [← hprev, update_eq_self]
  rw [makeNode, get_bind, hs.allocated, howner, hnext, hprev]
  rfl

omit [DecidableEq ι] in
theorem makeNode_tracks (hs : Tracks s v) (value : α) :
    ∃ s', makeNode value none s = .ok v.allocated s' ∧ Tracks s' (v.made value) ∧
      s'.owner v.allocated = none := by
  refine ⟨_, makeNode_eq hs value, ?_, hs.allocated_unowned⟩
  refine ⟨hs.head, hs.tail, hs.count, hs.version, hs.linked, hs.nodup, hs.countable, hs.owner,
    hs.detached, fun n => ?_, fun n this hmem => Nat.lt_succ_of_lt (hs.mem_made n this hmem), ?_, rfl,
    hs.alive, hs.dead⟩
  · change (update v.item v.allocated (some value) n).isSome = true ↔ n < v.allocated + 1
    by_cases hn : n = v.allocated
    · grind
    · rw [update_of_ne hn, hs.made n]
      omega
  · change update s.item v.allocated (some value) = _
    rw [hs.item]
    rfl

/-! ## Emptying a list -/

omit [DecidableEq ι] in
theorem Tracks.length_le (hs : Tracks s v) (this : ι) : (v.sequence this).length ≤ s.allocated := by
  have hsubset : v.sequence this ⊆ List.range v.allocated := fun n hn =>
    List.mem_range.mpr (hs.mem_made n this hn)
  have hle := (List.Nodup.subperm (hs.nodup this) hsubset).length_le
  rw [List.length_range] at hle
  rw [hs.allocated]
  exact hle

variable {before : Option ℕ} {fuel : ℕ}

omit [DecidableEq ι] in
theorem detachFrom_eq
    (hlinked : Linked s.next s.prev before l none) (hnodup : l.Nodup) (hfuel : l.length ≤ fuel) :
    detachFrom fuel l.head? s = some { s with
      owner := fun n => if n ∈ l then none else s.owner n
      next := fun n => if n ∈ l then none else s.next n
      prev := fun n => if n ∈ l then none else s.prev n } := by
  induction l generalizing s before fuel with
  | nil => simp [detachFrom]
  | cons a l ih =>
    obtain ⟨ha, hnodup⟩ := List.nodup_cons.mp hnodup
    obtain ⟨-, hnext, hrest⟩ := hlinked
    rw [Option.or_none] at hnext
    cases fuel with
    | zero => cases hfuel
    | succ fuel =>
      have hne : ∀ n ∈ l, n ≠ a := fun n hn h => ha (h ▸ hn)
      have hcleared : ∀ {β : Type} (f : ℕ → Option β), (fun n => if n ∈ l then none else
          update f a none n) = fun n => if n ∈ a :: l then none else f n := by grind
      rw [List.head?_cons, detachFrom, hnext, ih (hrest.congr
        (fun n hn => update_of_ne (hne n hn) ..)
        fun n hn => update_of_ne (hne n hn) ..) hnodup (Nat.le_of_succ_le_succ hfuel)]
      simp only [setOwner, setNext, setPrev, hcleared]

theorem detachAll_tracks (hs : Tracks s v) (this : ι) :
    ∃ s', detachAll this s = .ok () s' ∧ Tracks s' (v.put this [] 0) := by
  have hloop := detachFrom_eq (s := s.setList this fun l => { l with
    head_ := none, tail_ := none, count_ := 0 }) (hs.linked this) (hs.nodup this) (hs.length_le this)
  rw [← hs.head this] at hloop
  refine ⟨{ s with
    owner := fun n => if n ∈ v.sequence this then none else s.owner n
    next := fun n => if n ∈ v.sequence this then none else s.next n
    prev := fun n => if n ∈ v.sequence this then none else s.prev n
    list := update s.list this {
      head_ := none, tail_ := none, count_ := 0, version_ := (s.list this).version_ } }, ?_, ?_⟩
  · rw [detachAll, get_bind, hloop]
    rfl
  · refine hs.change List.nodup_nil trivial (Nat.zero_le _) rfl rfl rfl (hs.version this) ?_ ?_ ?_ ?_
      fun _ => rfl
    · exact fun n hn => (nomatch hn)
    · exact fun n hn => (nomatch hn)
    · exact fun n hn _ => ⟨if_pos hn, if_pos hn, if_pos hn⟩
    · exact fun n hn _ => ⟨if_neg hn, if_neg hn, if_neg hn⟩

theorem bumpVersion_tracks (hs : Tracks s v) (this : ι) :
    ∃ s', bumpVersion this s = .ok () s' ∧ Tracks s' (v.put this (v.sequence this) 1) := by
  refine ⟨_, rfl, ?_⟩
  refine hs.change (hs.nodup this) (hs.linked this) (hs.countable this) (hs.head this)
    (hs.tail this) (hs.count this) ?_ (fun n hn hthis => absurd hn hthis)
    (fun n hn => (hs.owner n this).mpr hn) (fun n hn hl => absurd hn hl)
    (fun n _ _ => ⟨rfl, rfl, rfl⟩) (hs.dead this)
  dsimp only
  rw [hs.version this, bitVec_succ]

/-! ## Copying -/

variable {rest : List ℕ}

theorem copied_cons {n : ℕ} {value : α}
    (hvalue : v.item n = some value) (hrest : ∀ m ∈ rest, m < v.allocated) :
    ((((v.made value).put this (l ++ [v.allocated]) 1).copied rest).put this
      ((l ++ [v.allocated]) ++ List.range' (v.allocated + 1) rest.length) rest.length) =
    (v.copied (n :: rest)).put this (l ++ List.range' v.allocated (n :: rest).length)
      (n :: rest).length := by
  have hitem : (fun m => if m < v.allocated + 1 then
        update v.item v.allocated (some value) m
      else rest[m - (v.allocated + 1)]?.bind (update v.item v.allocated (some value))) =
      fun m => if m < v.allocated then v.item m else (n :: rest)[m - v.allocated]?.bind v.item := by
    funext m
    rcases Nat.lt_trichotomy m v.allocated with hlt | rfl | hgt
    · rw [if_pos (Nat.lt_succ_of_lt hlt), if_pos hlt, update_of_ne hlt.ne]
    · simp [hvalue]
    · have hindex : m - v.allocated = m - (v.allocated + 1) + 1 := by omega
      rw [if_neg (by omega), if_neg (by omega), hindex, List.getElem?_cons_succ]
      cases hget : rest[m - (v.allocated + 1)]? with
      | none => rfl
      | some k =>
        have hk := hrest k (List.mem_of_getElem? hget)
        rw [Option.bind_some, Option.bind_some, update_of_ne hk.ne]
  have hsequence : (l ++ [v.allocated]) ++ List.range' (v.allocated + 1) rest.length =
      l ++ List.range' v.allocated (n :: rest).length := by
    rw [List.length_cons, List.range'_succ, List.append_assoc]
    rfl
  have hchanges : update (update v.changes this (v.changes this + 1)) this
      (update v.changes this (v.changes this + 1) this + rest.length) =
      update v.changes this (v.changes this + (n :: rest).length) := by grind
  have hallocated : v.allocated + 1 + rest.length = v.allocated + (n :: rest).length := by
    rw [List.length_cons]
    omega
  refine Lists.ext hitem hallocated rfl ?_ hchanges rfl
  change update (update v.sequence this (l ++ [v.allocated])) this _ =
    update v.sequence this _
  rw [update_idem, hsequence]

theorem copied_nil (hs : Tracks s v) :
    (v.copied []).put this (v.sequence this ++ List.range' v.allocated ([] : List ℕ).length)
      ([] : List ℕ).length = v := by
  have hitem : (fun n => if n < v.allocated then v.item n else
      ([] : List ℕ)[n - v.allocated]?.bind v.item) = v.item := by
    funext n
    split
    · rfl
    · next hn =>
      have hnone := mt (hs.made n).mp hn
      rw [Option.not_isSome_iff_eq_none] at hnone
      rw [hnone]
      rfl
  refine Lists.ext hitem rfl rfl ?_ (update_eq_self ..) rfl
  rw [List.length_nil, List.range'_zero, List.append_nil]
  exact update_eq_self ..

/-- A program ends by returning, or throws. -/
def ending (thrown : Option Exception) (s : LinkedListHeap α ι) :
    EStateM.Result ListFault (LinkedListHeap α ι) Unit :=
  match thrown with
  | none => .ok () s
  | some e => .error (.runtime e) s

theorem fault_cases (fault : CopyFault) (n : ℕ) :
    (∃ e, fault.now = some e ∧ copies fault (n + 1) = 0 ∧
      thrown fault (n + 1) = some e) ∨
    (fault.now = none ∧ copies fault (n + 1) = copies fault.later n + 1 ∧
      thrown fault (n + 1) = thrown fault.later n) := by
  rcases fault with _ | ⟨_ | k, e⟩
  · exact .inr ⟨rfl, rfl, rfl⟩
  · exact .inl ⟨e, rfl, Nat.zero_min _, by simp [thrown]⟩
  · exact .inr ⟨rfl, Nat.succ_min_succ k n, by simp [thrown, CopyFault.later]⟩

/-- By induction on the nodes to come. -/
theorem copyFrom_tracks (hs : Tracks s v) (hne : other ≠ this)
    (halive : v.alive this = true) (done : List ℕ)
    (hother : v.sequence other = done ++ rest) (hfuel : rest.length ≤ fuel)
    (hroom : (v.sequence this).length + rest.length ≤ intcsMax) (fault : CopyFault) :
    ∃ s', copyFrom this fuel rest.head? fault s = ending (thrown fault rest.length) s' ∧
      Tracks s' ((v.copied (rest.take (copies fault rest.length))).put this
        (v.sequence this ++
          List.range' v.allocated (rest.take (copies fault rest.length)).length)
        (rest.take (copies fault rest.length)).length) := by
  induction rest generalizing s v done fuel fault with
  | nil =>
    have hnone : thrown fault 0 = none := by
      cases fault <;> simp [thrown]
    refine ⟨s, ?_, ?_⟩
    · rw [List.length_nil, hnone, List.head?_nil]
      simp [copyFrom, ending]
    · rw [List.take_nil, copied_nil hs]
      exact hs
  | cons n rest ih =>
    cases fuel with
    | zero => cases hfuel
    | succ fuel =>
      have hn : n < v.allocated := hs.mem_made n other (by rw [hother]; simp)
      have hrest : ∀ m ∈ rest, m < v.allocated := fun m hm =>
        hs.mem_made m other (by rw [hother]; simp [hm])
      obtain ⟨value, hvalue⟩ := Option.isSome_iff_exists.mp ((hs.made n).mpr hn)
      rw [List.length_cons]
      obtain ⟨e, hnow, hcopies, hthrown⟩ | ⟨hnow, hcopies, hthrown⟩ := fault_cases fault rest.length
      · refine ⟨s, ?_, ?_⟩
        · rw [List.head?_cons, copyFrom, get_bind, hs.item, hvalue, hthrown]
          rw [hnow]
          rfl
        · rw [hcopies, List.take_zero, copied_nil hs]
          exact hs
      rw [hcopies, hthrown, List.take_succ_cons]
      obtain ⟨s₁, hmake, hs₁, hfree⟩ := makeNode_tracks hs value
      obtain ⟨-, s₂, hinsert, hs₂⟩ | ⟨hfull, -⟩ :=
        insertLast_inserts hs₁ hfree (Nat.lt_succ_self _) halive
      · have hother₂ : ((v.made value).put this ((v.made value).sequence this ++ [v.allocated])
            1).sequence other = (done ++ [n]) ++ rest := by
          rw [sequence_put_of_ne hne, List.append_assoc]
          exact hother
        have hlinked : Linked s₂.next s₂.prev none (done ++ n :: rest) none := by
          have hall := hs₂.linked other
          grind
        obtain ⟨s₃, hcopy, hs₃⟩ := ih hs₂ halive (done ++ [n]) hother₂
          (Nat.le_of_succ_le_succ hfuel) (by
            rw [sequence_put_self, List.length_append, List.length_singleton]
            rw [List.length_cons] at hroom
            change (v.sequence this).length + 1 + rest.length ≤ intcsMax
            omega) fault.later
        refine ⟨s₃, ?_, ?_⟩
        · rw [List.head?_cons, copyFrom, get_bind, hs.item, hvalue]
          rw [hnow]
          refine (bind_ok hmake).trans ((bind_ok hinsert).trans ?_)
          rw [get_bind, hlinked.next_eq, Option.or_none]
          exact hcopy
        · rw [sequence_put_self] at hs₃
          rw [← copied_cons hvalue fun m hm => hrest m (List.mem_of_mem_take hm)]
          exact hs₃
      · rw [List.length_append, List.length_singleton] at hfull
        rw [List.length_cons] at hroom
        change intcsMax < (v.sequence this).length + 1 at hfull
        omega

theorem copyNodesFrom_tracks (hs : Tracks s v) (hne : other ≠ this)
    (halive : v.alive this = true) (hempty : v.sequence this = []) (fault : CopyFault) :
    ∃ s', copyNodesFrom this other fault s =
        ending (thrown fault (v.sequence other).length) s' ∧
      Tracks s' (v.copyTo this
        ((v.sequence other).take (copies fault (v.sequence other).length))) := by
  obtain ⟨s', hcopy, hs'⟩ := copyFrom_tracks hs hne halive [] rfl (hs.length_le other)
    (by rw [hempty, List.length_nil, Nat.zero_add]; exact hs.countable other) fault
  refine ⟨s', ?_, ?_⟩
  · rw [copyNodesFrom, get_bind, hs.head other]
    exact hcopy
  · rw [hempty, List.nil_append] at hs'
    exact hs'

/-! ## Adopting -/

omit [DecidableEq ι] in
theorem adoptFrom_eq (this : ι)
    (hlinked : Linked s.next s.prev before l none) (hfuel : l.length ≤ fuel) :
    adoptFrom this fuel l.head? s = some { s with
      owner := fun n => if n ∈ l then some this else s.owner n } := by
  induction l generalizing s before fuel with
  | nil => simp [adoptFrom]
  | cons a l ih =>
    obtain ⟨-, hnext, hrest⟩ := hlinked
    rw [Option.or_none] at hnext
    cases fuel with
    | zero => cases hfuel
    | succ fuel =>
      have howner : (fun n => if n ∈ l then some this else
          update s.owner a (some this) n) =
          fun n => if n ∈ a :: l then some this else s.owner n := by grind
      rw [List.head?_cons, adoptFrom, hnext,
        ih (s := s.setOwner a (some this)) hrest (Nat.le_of_succ_le_succ hfuel)]
      simp only [setOwner, howner]

def bumped (other : ι) (s : LinkedListHeap α ι) : LinkedListHeap α ι :=
  (s.setList other fun l => { l with head_ := none, tail_ := none, count_ := 0 }).setList other
    fun l => { l with version_ := l.version_ + 1 }

theorem adoptNodesFrom_eq (hs : Tracks s v) (hne : other ≠ this) :
    ∃ s', adoptNodesFrom this other s = .ok () s' ∧
      s' = { s with
        owner := fun n => if n ∈ v.sequence other then some this else s.owner n
        list := s'.list } ∧
      s'.list this = { s.list other with version_ := (s.list this).version_ } ∧
      s'.list other = {
        head_ := none, tail_ := none, count_ := 0, version_ := (s.list other).version_ + 1 } ∧
      ∀ third, third ≠ this → third ≠ other → s'.list third = s.list third := by
  obtain ⟨t, ht⟩ : ∃ t, t = s.setList this fun l => { l with
      head_ := (s.list other).head_
      tail_ := (s.list other).tail_
      count_ := (s.list other).count_ } := ⟨_, rfl⟩
  have hthis : t.list this = { s.list other with version_ := (s.list this).version_ } := by
    simp [ht, setList]
  have hrest : ∀ third, third ≠ this → t.list third = s.list third := fun third h => by
    rw [ht, setList]
    exact update_of_ne h ..
  have hhead : (t.list this).head_ = (v.sequence other).head? := by
    rw [hthis]
    exact hs.head other
  have hlinked : Linked t.next t.prev none (v.sequence other) none := by
    rw [ht]
    exact hs.linked other
  have hfuel : (v.sequence other).length ≤ t.allocated := by
    rw [ht]
    exact hs.length_le other
  refine ⟨(bumped other { t with
    owner := fun n => if n ∈ v.sequence other then some this else t.owner n }), ?_, ?_, ?_, ?_, ?_⟩
  · rw [adoptNodesFrom, modify_bind, get_bind, ← ht, hhead, adoptFrom_eq this hlinked hfuel]
    rfl
  · rw [ht]
    rfl
  · simp [bumped, setList, update_of_ne hne.symm, hthis]
  · simp [bumped, setList, hrest other hne]
  · intro third hthird hother
    simp [bumped, setList, update_of_ne hother, hrest third hthird]

/-- A move hands all nodes over. -/
theorem adoptNodesFrom_tracks (hs : Tracks s v) (hne : other ≠ this)
    (halive : v.alive this = true) (hempty : v.sequence this = []) :
    ∃ s', adoptNodesFrom this other s = .ok () s' ∧ Tracks s' (v.moveTo this other) := by
  obtain ⟨s', hrun, hfields, hthis, hother, hthird⟩ := adoptNodesFrom_eq hs hne
  refine ⟨s', hrun, ?_⟩
  have hsequence : (v.moveTo this other).sequence this = v.sequence other ∧
      (v.moveTo this other).sequence other = [] ∧ ∀ third, third ≠ this → third ≠ other →
        (v.moveTo this other).sequence third = v.sequence third := by
    grind [moveTo, sequence_put_of_ne, sequence_put_self]
  have hchanges : (v.moveTo this other).changes this = v.changes this ∧
      (v.moveTo this other).changes other = v.changes other + 1 ∧
      ∀ third, third ≠ this → third ≠ other →
        (v.moveTo this other).changes third = v.changes third := by
    grind [moveTo, changes_put_of_ne, changes_put_self]
  have hcases : ∀ third, third = this ∨ third = other ∨ (third ≠ this ∧ third ≠ other) := by
    intro third
    tauto
  obtain ⟨hthisSequence, hotherSequence, hthirdSequence⟩ := hsequence
  obtain ⟨hthisChanges, hotherChanges, hthirdChanges⟩ := hchanges
  rw [hfields]
  constructor
  · intro third
    obtain rfl | rfl | ⟨hne₁, hne₂⟩ := hcases third
    · rw [hthisSequence, hthis]
      exact hs.head other
    · rw [hotherSequence, hother]
      rfl
    · grind [hs.head]
  · intro third
    obtain rfl | rfl | ⟨hne₁, hne₂⟩ := hcases third
    · rw [hthisSequence, hthis]
      exact hs.tail other
    · rw [hotherSequence, hother]
      rfl
    · grind [hs.tail]
  · intro third
    obtain rfl | rfl | ⟨hne₁, hne₂⟩ := hcases third
    · rw [hthisSequence, hthis]
      exact hs.count other
    · rw [hotherSequence, hother]
      rfl
    · grind [hs.count]
  · intro third
    obtain rfl | rfl | ⟨hne₁, hne₂⟩ := hcases third
    · rw [hthisChanges, hthis]
      exact hs.version _
    · rw [hotherChanges, hother, ← bitVec_succ, hs.version]
    · grind [hs.version]
  · intro third
    obtain rfl | rfl | ⟨hne₁, hne₂⟩ := hcases third
    · rw [hthisSequence]
      exact hs.linked other
    · rw [hotherSequence]
      trivial
    · rw [hthirdSequence third hne₁ hne₂]
      exact hs.linked third
  · intro third
    obtain rfl | rfl | ⟨hne₁, hne₂⟩ := hcases third
    · rw [hthisSequence]
      exact hs.nodup other
    · grind
    · rw [hthirdSequence third hne₁ hne₂]
      exact hs.nodup third
  · intro third
    obtain rfl | rfl | ⟨hne₁, hne₂⟩ := hcases third
    · rw [hthisSequence]
      exact hs.countable other
    · grind
    · rw [hthirdSequence third hne₁ hne₂]
      exact hs.countable third
  · intro n third
    dsimp only
    by_cases hn : n ∈ v.sequence other
    · rw [if_pos hn]
      obtain rfl | rfl | ⟨hne₁, hne₂⟩ := hcases third
      · grind
      · grind
      · rw [hthirdSequence third hne₁ hne₂]
        exact iff_of_false (fun h => hne₁ (Option.some.inj h).symm)
          fun h => hne₂ (hs.disjoint hn h)
    · rw [if_neg hn, hs.owner n third]
      obtain rfl | rfl | ⟨hne₁, hne₂⟩ := hcases third
      · grind
      · grind
      · rw [hthirdSequence third hne₁ hne₂]
  · grind [hs.detached]
  · exact hs.made
  · intro n third hmem
    obtain rfl | rfl | ⟨hne₁, hne₂⟩ := hcases third
    · rw [hthisSequence] at hmem
      exact hs.mem_made n other hmem
    · rw [hotherSequence] at hmem
      cases hmem
    · rw [hthirdSequence third hne₁ hne₂] at hmem
      exact hs.mem_made n third hmem
  · exact hs.item
  · exact hs.allocated
  · exact hs.alive
  · intro third hdead
    obtain rfl | rfl | ⟨hne₁, hne₂⟩ := hcases third
    · change v.alive _ = false at hdead
      rw [halive] at hdead
      cases hdead
    · exact hotherSequence
    · rw [hthirdSequence third hne₁ hne₂]
      exact hs.dead third hdead

/-! ## Looking up -/

omit [DecidableEq ι] in
theorem findFrom_eq [BEq α] (value : α)
    (hlinked : Linked s.next s.prev before l none) (hfuel : l.length ≤ fuel) :
    findFrom value s fuel l.head? =
      some (l.find? fun n => (s.item n).any (· == value)) := by
  induction l generalizing before fuel with
  | nil => simp [findFrom]
  | cons a l ih =>
    obtain ⟨-, hnext, hrest⟩ := hlinked
    rw [Option.or_none] at hnext
    cases fuel with
    | zero => cases hfuel
    | succ fuel => grind [findFrom]

end Change

end SharpRuntime.Analysis.LinkedLists
