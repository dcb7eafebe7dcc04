import SharpRuntime.Machine.Effects

/-!
# A stream that is delivered in pieces

A peer writes a stream, which arrives in pieces; who receives gets of the first piece as much as he
asks for.  A program that carries what it has received too early follows a reader of the stream
(`Reads`) when it gives the same values and leaves the same rest, whatever the pieces are; programs
that do so one after the other do so together (`Reads.bind`).
-/

set_option autoImplicit false

namespace Machine

variable {β ε α γ : Type}

/-- What is received, at most `want` at a time, and the pieces that are left. -/
def receive (want : ℕ) : List (List β) → List β × List (List β)
  | [] => ([], [])
  | [] :: pieces => receive want pieces
  | (b :: piece) :: pieces => ((b :: piece).take want, (b :: piece).drop want :: pieces)

variable (want : ℕ)

theorem receive_append (pieces : List (List β)) :
    (receive want pieces).1 ++ (receive want pieces).2.flatten = pieces.flatten := by
  induction pieces using receive.induct with
  | case1 => rfl
  | case2 pieces ih => exact ih
  | case3 b piece pieces =>
    rw [receive, List.flatten_cons, List.flatten_cons, ← List.append_assoc, List.take_append_drop]

theorem receive_length_le (pieces : List (List β)) : (receive want pieces).1.length ≤ want := by
  induction pieces using receive.induct with
  | case1 => exact Nat.zero_le _
  | case2 pieces ih => exact ih
  | case3 b piece pieces => exact List.length_take_le _ _

theorem receive_eq_nil_iff {want : ℕ} (hwant : 0 < want) (pieces : List (List β)) :
    (receive want pieces).1 = [] ↔ pieces.flatten = [] := by
  induction pieces using receive.induct with
  | case1 => exact Iff.rfl
  | case2 pieces ih => exact ih
  | case3 b piece pieces =>
    obtain ⟨n, rfl⟩ := Nat.exists_eq_succ_of_ne_zero hwant.ne'
    exact ⟨nofun, nofun⟩

theorem receive_short {cap : ℕ} {pieces : List (List β)}
    (hshort : ∀ piece ∈ pieces, piece.length ≤ cap) :
    (receive want pieces).1.length ≤ cap ∧
      ∀ piece ∈ (receive want pieces).2, piece.length ≤ cap := by
  induction pieces using receive.induct with
  | case1 => exact ⟨Nat.zero_le _, nofun⟩
  | case2 pieces ih => exact ih fun piece h => hshort piece (List.mem_cons_of_mem _ h)
  | case3 b piece pieces =>
    have hfirst := hshort _ List.mem_cons_self
    refine ⟨(List.length_take_le' _ _).trans hfirst, fun p hp => ?_⟩
    rcases List.mem_cons.mp hp with rfl | hp
    · rw [List.length_drop]
      exact (Nat.sub_le _ _).trans hfirst
    · exact hshort p (List.mem_cons_of_mem _ hp)

theorem receive_last {want : ℕ} {last : List β} (hlast : last.length ≤ want)
    (before : List (List β)) :
    (∃ before', (receive want (before ++ [last])).2 = before' ++ [last]) ∨
      (receive want (before ++ [last])).2.flatten = [] := by
  induction before using receive.induct with
  | case1 =>
    cases last with
    | nil => exact .inr rfl
    | cons b last => exact .inr (by simp [receive, List.drop_of_length_le hlast])
  | case2 before ih => exact ih
  | case3 b piece before => exact .inl ⟨(b :: piece).drop want :: before, rfl⟩

/-- What has been received too early, and the pieces to come. -/
structure Delivery (β : Type) where
  carried : List β
  pieces : List (List β)

def Delivery.stream (d : Delivery β) : List β := d.carried ++ d.pieces.flatten

abbrev StreamReader (ε β α : Type) : Type := StateT (List β) (Except ε) α

/-- The value of a program and the rest of the stream, or its exception. -/
def reading : EStateM.Result ε (Delivery β) α → Except ε (α × List β)
  | .ok a d => .ok (a, d.stream)
  | .error e _ => .error e

/-- Whatever the pieces are, the program reads of the stream what the reader does. -/
def Reads (p : Program ε (Delivery β) α) (q : StreamReader ε β α) : Prop :=
  ∀ d, reading (p d) = q d.stream

namespace Reads

theorem pure (a : α) : Reads (pure a : Program ε (Delivery β) α) (pure a) := fun _ => rfl

theorem throw (e : ε) : Reads (throw e : Program ε (Delivery β) α) (throw e) := fun _ => rfl

theorem bind {p : Program ε (Delivery β) α} {q : StreamReader ε β α}
    {f : α → Program ε (Delivery β) γ} {g : α → StreamReader ε β γ} (hp : Reads p q)
    (hf : ∀ a, Reads (f a) (g a)) : Reads (p >>= f) (q >>= g) := by
  intro d
  have hd := hp d
  change _ = (q d.stream).bind fun r => g r.1 r.2
  rw [← hd]
  cases hrun : p d with
  | ok a d' =>
    rw [bind_ok hrun]
    exact hf a d'
  | error e d' =>
    rw [bind_error hrun]
    rfl

theorem ite {c : Prop} [Decidable c] {p p' : Program ε (Delivery β) α} {q q' : StreamReader ε β α}
    (hp : Reads p q) (hp' : Reads p' q') :
    Reads (if c then p else p') (if c then q else q') := by
  split
  · exact hp
  · exact hp'

variable {p : Program ε (Delivery β) α} {q : StreamReader ε β α} {d d' : Delivery β}

theorem ok (h : Reads p q) {a : α} (hrun : p d = .ok a d') : q d.stream = .ok (a, d'.stream) := by
  have hd := h d
  rw [hrun] at hd
  exact hd.symm

theorem error (h : Reads p q) {e : ε} (hrun : p d = .error e d') : q d.stream = .error e := by
  have hd := h d
  rw [hrun] at hd
  exact hd.symm

theorem of_ok (h : Reads p q) {a : α} {rest : List β} (hread : q d.stream = .ok (a, rest)) :
    ∃ d', p d = .ok a d' ∧ d'.stream = rest := by
  have hd := h d
  rw [hread] at hd
  cases hrun : p d with
  | ok a' d' =>
    rw [hrun] at hd
    cases hd
    exact ⟨d', rfl, rfl⟩
  | error e d' =>
    rw [hrun] at hd
    cases hd

theorem answer_eq (h : Reads p q) (hsame : d.stream = d'.stream) : answer (p d) = answer (p d') := by
  have hd : reading (p d) = reading (p d') := by rw [h d, h d', hsame]
  have hanswer : ∀ r : EStateM.Result ε (Delivery β) α, answer r = (reading r).map Prod.fst := by
    rintro (_ | _) <;> rfl
  rw [hanswer, hanswer, hd]

end Reads

variable [DecidableEq β] {a b : β} {xs ys l r : List β}

/-- What stands before the first `a` that a `b` follows, and what stands behind them. -/
def untilPair (a b : β) : List β → Option (List β × List β)
  | x :: y :: rest =>
    if x = a ∧ y = b then some ([], rest)
    else (untilPair a b (y :: rest)).map fun (l, r) => (x :: l, r)
  | _ => none

theorem untilPair_eq (h : untilPair a b xs = some (l, r)) : xs = l ++ a :: b :: r := by
  induction xs using untilPair.induct a b generalizing l with
  | case1 x y rest hpair =>
    obtain ⟨rfl, rfl⟩ := hpair
    rw [untilPair, if_pos ⟨rfl, rfl⟩] at h
    cases h
    rfl
  | case2 x y rest hpair ih =>
    rw [untilPair, if_neg hpair, Option.map_eq_some_iff] at h
    obtain ⟨⟨l', r'⟩, hrest, heq⟩ := h
    cases heq
    rw [ih hrest]
    rfl
  | case3 t ht =>
    rw [untilPair] at h
    · cases h
    · exact ht

theorem untilPair_none_iff : untilPair a b xs = none ↔ ¬ [a, b] <:+: xs := by
  induction xs using untilPair.induct a b with
  | case1 x y rest hpair =>
    obtain ⟨rfl, rfl⟩ := hpair
    rw [untilPair, if_pos ⟨rfl, rfl⟩]
    exact ⟨nofun, fun h => absurd ⟨[], rest, rfl⟩ h⟩
  | case2 x y rest hpair ih =>
    rw [untilPair, if_neg hpair, Option.map_eq_none_iff, ih, List.infix_cons_iff (a := x), not_or]
    refine ⟨fun h => ⟨fun hprefix => hpair ?_, h⟩, And.right⟩
    obtain ⟨t, ht⟩ := hprefix
    cases ht
    exact ⟨rfl, rfl⟩
  | case3 t ht =>
    rw [untilPair]
    · refine ⟨fun _ ⟨u, w, h⟩ => ?_, fun _ => rfl⟩
      cases u with
      | nil => exact ht a b w h.symm
      | cons c u =>
        cases u with
        | nil => exact ht c a (b :: w) h.symm
        | cons c' u => exact ht c c' _ h.symm
    · exact ht

theorem untilPair_append (h : untilPair a b xs = some (l, r)) (ys : List β) :
    untilPair a b (xs ++ ys) = some (l, r ++ ys) := by
  induction xs using untilPair.induct a b generalizing l with
  | case1 x y rest hpair =>
    rw [untilPair, if_pos hpair] at h
    cases h
    exact if_pos hpair
  | case2 x y rest hpair ih =>
    rw [untilPair, if_neg hpair, Option.map_eq_some_iff] at h
    obtain ⟨⟨l', r'⟩, hrest, heq⟩ := h
    cases heq
    exact (if_neg hpair).trans ((congrArg (Option.map _) (ih hrest)).trans rfl)
  | case3 t ht =>
    rw [untilPair] at h
    · cases h
    · exact ht

theorem untilPair_line (hab : a ≠ b) (hline : ¬ [a, b] <:+: l) (r : List β) :
    untilPair a b (l ++ a :: b :: r) = some (l, r) := by
  induction l with
  | nil => exact if_pos ⟨rfl, rfl⟩
  | cons x l ih =>
    have hrest := ih fun h => hline (h.trans (List.suffix_cons x l).isInfix)
    cases l with
    | nil =>
      exact (if_neg fun h => hab h.2).trans ((congrArg (Option.map _) hrest).trans rfl)
    | cons y l =>
      refine (if_neg ?_).trans ((congrArg (Option.map _) hrest).trans rfl)
      rintro ⟨rfl, rfl⟩
      exact hline ⟨[], l, rfl⟩

theorem untilPair_added (hnone : untilPair a b xs = none)
    (h : untilPair a b (xs ++ ys) = some (l, r)) : r.length < ys.length := by
  have heq := untilPair_eq h
  by_contra hle
  rw [not_lt] at hle
  obtain ⟨t, ht⟩ : ys <:+ r := by
    have hr : r <:+ xs ++ ys := ⟨l ++ [a, b], by rw [heq]; simp⟩
    exact List.suffix_of_suffix_length_le (List.suffix_append xs ys) hr hle
  have hxs : (l ++ [a, b] ++ t) ++ ys = xs ++ ys := by
    rw [heq, ← ht]
    simp
  exact untilPair_none_iff.mp hnone ⟨l, t, List.append_cancel_right hxs⟩

end Machine
