import Mathlib

/-!
# Bootstring

A sequence of numbers is coded as its small members followed by the places where the others are
inserted, in ascending order.  A counter runs through every value and place of the sequence built so
far; what is written is how far it moves to the next insertion (`scan`, `Placed`), as an integer
whose last digit is the one below its threshold (`digits`).  What is read may be no such word: a
reader goes on (`Adaptive.Reaches`) through numbers that only a word keeps bounded
(`Adaptive.Fits`).
-/

set_option autoImplicit false

namespace Machine.Bootstring

/-- A base with a threshold for each digit. -/
structure Thresholds where
  base : ℕ
  at' : ℕ → ℕ
  pos : ∀ j, 0 < at' j
  lt : ∀ j, at' j < base

variable (t : Thresholds)

def Thresholds.carry (j q : ℕ) : ℕ := (q - t.at' j) / (t.base - t.at' j)

variable {j q : ℕ}

theorem Thresholds.carry_lt (h : ¬ q < t.at' j) : t.carry j q < q := by
  have hpos := t.pos j
  have hdiv := Nat.div_le_self (q - t.at' j) (t.base - t.at' j)
  unfold carry
  omega

def digits (j q : ℕ) : List ℕ :=
  if q < t.at' j then [q]
  else (t.at' j + (q - t.at' j) % (t.base - t.at' j)) :: digits (j + 1) (t.carry j q)
termination_by q
decreasing_by exact t.carry_lt (by assumption)

variable {t}

theorem digits_of_lt (h : q < t.at' j) : digits t j q = [q] := by
  rw [digits, if_pos h]

theorem digits_of_le (h : ¬ q < t.at' j) :
    digits t j q = (t.at' j + (q - t.at' j) % (t.base - t.at' j))
      :: digits t (j + 1) (t.carry j q) := by
  rw [digits, if_neg h]

theorem digit_add_carry (h : ¬ q < t.at' j) :
    t.at' j + (q - t.at' j) % (t.base - t.at' j) + t.carry j q * (t.base - t.at' j) = q := by
  have hdiv := Nat.mod_add_div' (q - t.at' j) (t.base - t.at' j)
  unfold Thresholds.carry
  omega

theorem digit_lt : t.at' j + (q - t.at' j) % (t.base - t.at' j) < t.base := by
  have hlt := t.lt j
  have hmod := Nat.mod_lt (q - t.at' j) (y := t.base - t.at' j) (by omega)
  omega

theorem digits_lt : ∀ d ∈ digits t j q, d < t.base := by
  induction q using Nat.strong_induction_on generalizing j with
  | _ q ih =>
    by_cases h : q < t.at' j
    · intro d hd
      rw [digits_of_lt h, List.mem_singleton] at hd
      have hlt := t.lt j
      omega
    · intro d hd
      rw [digits_of_le h, List.mem_cons] at hd
      rcases hd with rfl | hd
      · exact digit_lt
      · exact ih _ (t.carry_lt h) d hd

theorem digits_ne_nil (j q : ℕ) : digits t j q ≠ [] := by grind [digits_of_lt, digits_of_le]

/-- Thresholds for each bias, and the bias after a distance: it depends on the length of the
sequence the distance leads to, and on whether the distance is the first. -/
structure Adaptive where
  thresholds : ℕ → Thresholds
  next : (distance length : ℕ) → (first : Bool) → ℕ

variable (a : Adaptive)

/-- The digits of distances, written with the bias `bias` at a sequence of length `length`.  The
first distance of all is the one at the length `start`. -/
def Adaptive.word (start : ℕ) : (bias length : ℕ) → List ℕ → List ℕ
  | _, _, [] => []
  | bias, length, d :: ds =>
    digits (a.thresholds bias) 0 d
      ++ Adaptive.word start (a.next d (length + 1) (length == start)) (length + 1) ds

def Adaptive.biasAfter (start : ℕ) : (bias length : ℕ) → List ℕ → ℕ
  | bias, _, [] => bias
  | _, length, d :: ds =>
    Adaptive.biasAfter start (a.next d (length + 1) (length == start)) (length + 1) ds

theorem Adaptive.word_append (start bias length : ℕ) (ds es : List ℕ) :
    a.word start bias length (ds ++ es) = a.word start bias length ds
      ++ a.word start (a.biasAfter start bias length ds) (length + ds.length) es := by
  induction ds generalizing bias length with
  | nil => rfl
  | cons d ds ih => grind [word, biasAfter]

theorem Adaptive.biasAfter_append (start bias length : ℕ) (ds es : List ℕ) :
    a.biasAfter start bias length (ds ++ es)
      = a.biasAfter start (a.biasAfter start bias length ds) (length + ds.length) es := by
  induction ds generalizing bias length with
  | nil => rfl
  | cons d ds ih =>
    rw [List.cons_append, biasAfter, ih, biasAfter, List.length_cons, Nat.add_right_comm,
      Nat.add_assoc]

/-- The counter and the sequence built so far: the value, the place, and the sequence. -/
structure Counter where
  value : ℕ
  place : ℕ
  sequence : List ℕ

/-- The counter moved by `d`, with the value it reaches inserted at the place it reaches. -/
def Counter.move (s : Counter) (d : ℕ) : Counter where
  value := s.value + (s.place + d) / (s.sequence.length + 1)
  place := (s.place + d) % (s.sequence.length + 1) + 1
  sequence := s.sequence.insertIdx ((s.place + d) % (s.sequence.length + 1))
    (s.value + (s.place + d) / (s.sequence.length + 1))

theorem Counter.length_move (s : Counter) (d : ℕ) :
    (s.move d).sequence.length = s.sequence.length + 1 :=
  List.length_insertIdx_of_le_length (Nat.le_of_lt_succ (Nat.mod_lt _ (Nat.succ_pos _))) _

/-- The distances `ds` lead from `s` to `s'`, through values with the property `ok` only. -/
inductive Placed (ok : ℕ → Prop) : Counter → List ℕ → Counter → Prop where
  | nil (s : Counter) : Placed ok s [] s
  | cons {s s' : Counter} {d : ℕ} {ds : List ℕ} (hok : ok (s.move d).value)
      (h : Placed ok (s.move d) ds s') : Placed ok s (d :: ds) s'

variable {ok : ℕ → Prop} {s : Counter}

variable {s' : Counter} {ds : List ℕ}

theorem Placed.append {s'' : Counter} {es : List ℕ}
    (h : Placed ok s ds s') (h' : Placed ok s' es s'') : Placed ok s (ds ++ es) s'' := by
  induction h with
  | nil s => exact h'
  | cons hok _ ih => exact Placed.cons hok (ih h')

theorem Placed.length (h : Placed ok s ds s') :
    s'.sequence.length = s.sequence.length + ds.length := by
  induction h with
  | nil s => rfl
  | @cons s s' d ds _ _ ih =>
    rw [ih, s.length_move d, List.length_cons]
    omega

/-- How far the counter has come, counted in places of a sequence of the present length. -/
def Counter.reached (s : Counter) : ℕ := s.value * (s.sequence.length + 1) + s.place

variable {d n : ℕ}

theorem move_eq {p : ℕ} (hp : p ≤ s.sequence.length)
    (h : s.reached + d = n * (s.sequence.length + 1) + p) :
    s.move d = ⟨n, p + 1, s.sequence.insertIdx p n⟩ := by
  have hle : s.value ≤ n := by
    by_contra hlt
    have hmul := Nat.mul_le_mul_right (s.sequence.length + 1) (show n + 1 ≤ s.value by omega)
    rw [Nat.add_mul] at hmul
    unfold Counter.reached at h
    omega
  obtain ⟨k, rfl⟩ := Nat.exists_eq_add_of_le hle
  have hsum : s.place + d = k * (s.sequence.length + 1) + p := by
    unfold Counter.reached at h
    rw [Nat.add_mul] at h
    omega
  have hdiv : (s.place + d) / (s.sequence.length + 1) = k := by
    rw [hsum, Nat.mul_comm, Nat.mul_add_div (by omega), Nat.div_eq_of_lt (by omega), Nat.add_zero]
  have hmod : (s.place + d) % (s.sequence.length + 1) = p := by
    rw [hsum, Nat.mul_comm, Nat.mul_add_mod, Nat.mod_eq_of_lt (by omega)]
  rw [Counter.move, hdiv, hmod]

/-- The distances written while a sequence is scanned for the value `n`, and the distance after it:
smaller values are places passed by. -/
def scan (n : ℕ) : (distance : ℕ) → List ℕ → List ℕ × ℕ
  | distance, [] => ([], distance)
  | distance, c :: cs =>
    if c < n then scan n (distance + 1) cs
    else if c = n then
      let (ds, distance') := scan n 0 cs
      (distance :: ds, distance')
    else scan n distance cs

theorem scan_ne_nil {cs : List ℕ} (h : n ∈ cs) (distance : ℕ) : (scan n distance cs).1 ≠ [] := by
  induction cs generalizing distance with
  | nil => cases h
  | cons c cs ih => grind [scan]

def below (n : ℕ) (cs : List ℕ) : List ℕ := cs.filter (· < n)

/-- The sequence built when a scan for `n` stands between `pre` and `post`. -/
def between (n : ℕ) (pre post : List ℕ) : List ℕ := below (n + 1) pre ++ below n post

variable {c : ℕ}

theorem below_cons_of_lt (h : c < n) (cs : List ℕ) : below n (c :: cs) = c :: below n cs :=
  List.filter_cons_of_pos (by simpa using h)

theorem below_cons_of_le (h : ¬ c < n) (cs : List ℕ) : below n (c :: cs) = below n cs :=
  List.filter_cons_of_neg (by simpa using h)

theorem below_append (n : ℕ) (cs ds : List ℕ) : below n (cs ++ ds) = below n cs ++ below n ds :=
  List.filter_append ..

theorem between_cons (h : c ≠ n) (pre post : List ℕ) :
    between n pre (c :: post) = between n (pre ++ [c]) post := by
  unfold between
  rw [below_append, List.append_assoc]
  by_cases hlt : c < n
  · rw [below_cons_of_lt hlt, below_cons_of_lt (by omega)]
    rfl
  · rw [below_cons_of_le hlt, below_cons_of_le (by omega)]
    rfl

theorem insertIdx_between (n : ℕ) (pre post : List ℕ) :
    (between n pre (n :: post)).insertIdx (below (n + 1) pre).length n
      = between n (pre ++ [n]) post := by
  have hinsert : ∀ s t : List ℕ, (s ++ t).insertIdx s.length n = s ++ n :: t := by
    intro s t
    induction s with
    | nil => rfl
    | cons a s ih =>
      rw [List.cons_append, List.length_cons, List.insertIdx_succ_cons, ih]
      rfl
  unfold between
  rw [below_cons_of_le (Nat.lt_irrefl n), hinsert, below_append, below_cons_of_lt (Nat.lt_succ_self n),
    List.append_assoc]
  rfl

/-- **A scan places every occurrence of its value.** -/
theorem placed_scan (hn : ok n) {pre post : List ℕ}
    {distance : ℕ} (hs : s.sequence = between n pre post)
    (hreached : s.reached + distance = n * (s.sequence.length + 1) + (below (n + 1) pre).length) :
    ∃ s', Placed ok s (scan n distance post).1 s' ∧ s'.sequence = below (n + 1) (pre ++ post) ∧
      s'.reached + (scan n distance post).2
        = n * (s'.sequence.length + 1) + s'.sequence.length := by
  induction post generalizing pre s distance with
  | nil =>
    have hdone : between n pre [] = below (n + 1) pre := List.append_nil _
    refine ⟨s, Placed.nil s, ?_, ?_⟩
    · rw [hs, hdone, List.append_nil]
    · rw [hs, hdone] at hreached ⊢
      exact hreached
  | cons c post ih =>
    have happend : pre ++ c :: post = pre ++ [c] ++ post := by simp
    rw [happend]
    by_cases hlt : c < n
    · rw [scan, if_pos hlt]
      apply ih (hs.trans (between_cons (by omega) pre post))
      rw [below_append, below_cons_of_lt (by omega), List.length_append]
      change s.reached + (distance + 1) = _ + ((below (n + 1) pre).length + (0 + 1))
      omega
    · by_cases heq : c = n
      · subst heq
        have hplace : (below (c + 1) pre).length ≤ s.sequence.length := by
          rw [hs, between, List.length_append]
          omega
        have hmove := move_eq hplace hreached
        have hsequence : (s.move distance).sequence = between c (pre ++ [c]) post := by
          rw [hmove, ← insertIdx_between, ← hs]
        have hlength : (below (c + 1) (pre ++ [c])).length = (below (c + 1) pre).length + 1 := by
          rw [below_append, below_cons_of_lt (Nat.lt_succ_self c), List.length_append]
          rfl
        have hnext : (s.move distance).reached + 0
            = c * ((s.move distance).sequence.length + 1) + (below (c + 1) (pre ++ [c])).length := by
          rw [hlength, Nat.add_zero, Counter.reached, hmove]
        obtain ⟨s', hplaced, hfinal, hdone⟩ := ih hsequence hnext
        refine ⟨s', ?_, hfinal, ?_⟩
        · rw [scan, if_neg hlt, if_pos rfl]
          refine Placed.cons ?_ hplaced
          rw [hmove]
          exact hn
        · rw [scan, if_neg hlt, if_pos rfl]
          exact hdone
      · rw [scan, if_neg hlt, if_neg heq]
        apply ih (hs.trans (between_cons heq pre post))
        rw [below_append, below_cons_of_le (by omega)]
        simpa [below] using hreached

def Thresholds.weight (t : Thresholds) : ℕ → ℕ
  | 0 => 1
  | j + 1 => t.weight j * (t.base - t.at' j)

/-- The number whose digits stand in front, from place `j` on, and what comes after them; a symbol
may be no digit. -/
def Thresholds.read (t : Thresholds) : (j : ℕ) → List (Option ℕ) → Option (ℕ × List (Option ℕ))
  | _, [] => none
  | _, none :: _ => none
  | j, some d :: s =>
    if d < t.at' j then some (d * t.weight j, s)
    else (t.read (j + 1) s).map fun p => (d * t.weight j + p.1, p.2)

/-- The sums of the digits in front and the weights that they call for stay up to `max`. -/
def Thresholds.Within (t : Thresholds) (max : ℕ) : (j acc : ℕ) → List (Option ℕ) → Prop
  | _, _, [] => True
  | _, _, none :: _ => True
  | j, acc, some d :: s =>
    acc + d * t.weight j ≤ max ∧
      (d < t.at' j ∨ t.weight (j + 1) ≤ max ∧ t.Within max (j + 1) (acc + d * t.weight j) s)

variable {t : Thresholds} {s rest : List (Option ℕ)}

theorem Thresholds.Within.add_le {max acc : ℕ}
    (h : t.Within max j acc s) (hread : t.read j s = some (d, rest)) : acc + d ≤ max := by
  induction s generalizing j acc d with
  | nil => cases hread
  | cons x s ih =>
    cases x with
    | none => cases hread
    | some x =>
      rw [Thresholds.read] at hread
      split at hread
      case isTrue =>
        cases hread
        exact h.1
      case isFalse hnot =>
        obtain ⟨p, hp, hpair⟩ := Option.map_eq_some_iff.mp hread
        obtain ⟨rfl, rfl⟩ := Prod.mk.inj hpair
        have hrest := ih (h.2.resolve_left hnot).2 hp
        omega

theorem Thresholds.length_of_read
    (hread : t.read j s = some (d, rest)) : rest.length < s.length := by
  induction s generalizing j d with
  | nil => cases hread
  | cons x s ih =>
    cases x with
    | none => cases hread
    | some x =>
      rw [Thresholds.read] at hread
      split at hread
      case isTrue =>
        cases hread
        exact Nat.lt_succ_self _
      case isFalse =>
        obtain ⟨p, hp, hpair⟩ := Option.map_eq_some_iff.mp hread
        obtain ⟨rfl, rfl⟩ := Prod.mk.inj hpair
        exact (ih hp).trans (Nat.lt_succ_self _)

/-- How far a reader has come: the counter, the bias, and what is still to be read. -/
structure Progress where
  counter : Counter
  bias : ℕ
  rest : List (Option ℕ)

/-- The reader takes a distance and inserts the value that it leads to, if that is one. -/
inductive Adaptive.Steps (a : Adaptive) (ok : ℕ → Prop) : Progress → Progress → Prop where
  | intro {p : Progress} {d : ℕ} {rest : List (Option ℕ)}
    (hread : (a.thresholds p.bias).read 0 p.rest = some (d, rest))
    (hok : ok (p.counter.move d).value) :
    Adaptive.Steps a ok p ⟨p.counter.move d,
      a.next d (p.counter.sequence.length + 1) (p.counter.place == 0), rest⟩

def Adaptive.Reaches (a : Adaptive) (ok : ℕ → Prop) : Progress → Progress → Prop :=
  Relation.ReflTransGen (a.Steps ok)

/-- The numbers that the next step forms stay up to `max`. -/
structure Adaptive.Fits (a : Adaptive) (max : ℕ) (p : Progress) : Prop where
  within : (a.thresholds p.bias).Within max 0 p.counter.place p.rest
  value : ∀ d rest, (a.thresholds p.bias).read 0 p.rest = some (d, rest) →
    (p.counter.move d).value ≤ max

/-- All the numbers that are formed from here on stay up to `max`. -/
def Adaptive.StaysWithin (a : Adaptive) (ok : ℕ → Prop) (max : ℕ) (p : Progress) : Prop :=
  ∀ q, a.Reaches ok p q → a.Fits max q

def Adaptive.Finishes (a : Adaptive) (ok : ℕ → Prop) (p : Progress) : Prop :=
  ∃ q, a.Reaches ok p q ∧ q.rest = []

section Reader

variable {a : Adaptive} {ok : ℕ → Prop} {max : ℕ} {p q : Progress}

theorem Adaptive.Steps.unique {q' : Progress} (h : a.Steps ok p q) (h' : a.Steps ok p q') :
    q = q' := by
  obtain ⟨hread, -⟩ := h
  obtain ⟨hread', -⟩ := h'
  cases hread.symm.trans hread'
  rfl

theorem Adaptive.staysWithin_iff :
    a.StaysWithin ok max p ↔ a.Fits max p ∧ ∀ q, a.Steps ok p q → a.StaysWithin ok max q := by
  constructor
  · intro h
    exact ⟨h p .refl, fun q hq r hr => h r (.head hq hr)⟩
  · rintro ⟨hfits, hrest⟩ r hr
    rcases Relation.ReflTransGen.cases_head hr with rfl | ⟨q, hq, hqr⟩
    · exact hfits
    · exact hrest q hq r hqr

theorem Adaptive.finishes_iff :
    a.Finishes ok p ↔ p.rest = [] ∨ ∃ q, a.Steps ok p q ∧ a.Finishes ok q := by
  constructor
  · rintro ⟨r, hr, hnil⟩
    rcases Relation.ReflTransGen.cases_head hr with rfl | ⟨q, hq, hqr⟩
    · exact Or.inl hnil
    · exact Or.inr ⟨q, hq, r, hqr, hnil⟩
  · rintro (hnil | ⟨q, hq, r, hr, hnil⟩)
    · exact ⟨p, .refl, hnil⟩
    · exact ⟨r, .head hq hr, hnil⟩

theorem Adaptive.not_steps_of_nil (hnil : p.rest = []) : ¬ a.Steps ok p q := by
  rintro ⟨hread, -⟩
  rw [hnil] at hread
  cases hread

end Reader

end Machine.Bootstring
