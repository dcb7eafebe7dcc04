import SharpRuntime.Interface.SequenceWindow

/-!
# The views of a read-only sequence

A sequence represents a window on its buffer, and a slice narrows the window or throws
(`slice_represents`); this holds along every chain of slices (`sliceAll_represents`).  `first`,
`tryGet`, `toArray` and `copyTo` all give the elements of the window.  The enumerator does so only
where the sequence says that it has a buffer, which the result of a slice does not.
-/

set_option autoImplicit false

namespace SharpRuntime.Analysis.SequenceViews

open Machine Model Model.ReadOnlySequence Interface
open Window hiding slice first

variable {α : Type}

/-- `q` is the window `w` on `data`. -/
structure Represents (q : ReadOnlySequence α) (data : List α) (w : Window) : Prop where
  data_eq : q.data = data
  start_eq : q.start.toInt = w.first
  end_eq : q.end_.toInt = w.last
  nonneg : 0 ≤ w.first
  inside : w.last ≤ data.length

variable {q : ReadOnlySequence α} {data : List α} {w : Window}

theorem slicePositions_eq (h : Represents q data w) (start end_ : SequencePosition) :
    q.slicePositions start end_ =
      if w.Contains ⟨start.getInteger.toInt, end_.getInteger.toInt⟩ then
        pure ⟨data, start.getInteger, end_.getInteger, false⟩
      else Run.throwing (.outOfRange "start") := by
  have hstart := h.start_eq
  have hend := h.end_eq
  rw [slicePositions]
  simp only [Int32.lt_iff_toInt_lt, h.data_eq]
  split
  case isTrue hout =>
    rw [if_neg]
    rw [contains_mk]
    omega
  case isFalse hin =>
    rw [if_pos]
    rw [contains_mk]
    omega

theorem getPositionFrom_eq (h : Represents q data w) (offset : Int64) (origin : SequencePosition) :
    q.getPositionFrom offset origin =
      if 0 ≤ offset.toInt ∧ w.first ≤ origin.getInteger.toInt ∧
          origin.getInteger.toInt + offset.toInt ≤ w.last then
        pure ⟨Int32.ofInt (origin.getInteger.toInt + offset.toInt)⟩
      else Run.throwing (.outOfRange "offset") := by
  have hstart := h.start_eq
  have hend := h.end_eq
  have hlo := origin.getInteger.le_toInt
  have hendhi := q.end_.toInt_lt
  rw [getPositionFrom]
  simp only [Int64.lt_iff_toInt_lt, Int32.lt_iff_toInt_lt, Int64.toInt_zero]
  by_cases hoffset : offset.toInt < 0
  · rw [if_pos hoffset, if_neg (by omega)]
  · rw [if_neg hoffset]
    by_cases horigin : origin.getInteger.toInt < q.start.toInt ∨
        q.end_.toInt < origin.getInteger.toInt
    · rw [if_pos horigin, if_neg (by omega)]
    · rw [if_neg horigin, Run.signed_eq_pure (by decide) (by omega) (by omega), pure_bind]
      by_cases hroom : q.end_.toInt - origin.getInteger.toInt < offset.toInt
      · rw [if_pos hroom, if_neg (by omega)]
      · rw [if_neg hroom, Run.signed_eq_pure (by decide) (by omega) (by omega), pure_bind,
          if_pos (by omega)]

theorem toInt_ofInt {n : ℤ} (hlo : -2 ^ 31 ≤ n) (hhi : n < 2 ^ 31) :
    (Int32.ofInt n).toInt = n := by grind [Int32.toInt_ofInt]

/-- A slice within the view represents the narrower view, and others are refused. -/
theorem slice_represents (h : Represents q data w) (call : Call) :
    if w.Contains (w.slice call) then
      ∃ result, q.slice call = pure result ∧ Represents result data (w.slice call) ∧
        result.hasBuffer = false
    else ∃ paramName, q.slice call = Run.throwing (.outOfRange paramName) := by
  have hstart := h.start_eq
  have hend := h.end_eq
  have hendhi := q.end_.toInt_lt
  have hnonneg := h.nonneg
  have hinside := h.inside
  -- the position an offset from the start finds
  have hposition : ∀ offset : Int64, q.getPosition offset =
      if 0 ≤ offset.toInt ∧ w.first + offset.toInt ≤ w.last then
        pure ⟨Int32.ofInt (w.first + offset.toInt)⟩
      else Run.throwing (.outOfRange "offset") := by
    intro offset
    rw [getPosition, getPositionFrom_eq h]
    simp only [getStartProperty, hstart, le_refl, true_and]
  split
  case isTrue hin =>
    obtain ⟨hfirst, hlength, hlast⟩ := hin
    cases call with
    | positions start end_ =>
      refine ⟨⟨data, start.getInteger, end_.getInteger, false⟩, ?_, ⟨rfl, rfl, rfl, ?_, ?_⟩, rfl⟩
      · rw [slice, slicePositions_eq h, if_pos ⟨hfirst, hlength, hlast⟩]
      · exact le_trans hnonneg hfirst
      · exact le_trans hlast hinside
    | fromPosition start =>
      refine ⟨⟨data, start.getInteger, q.end_, false⟩, ?_, ⟨rfl, rfl, hend, ?_, ?_⟩, rfl⟩
      · rw [slice, slicePositions_eq h, if_pos ⟨hfirst, hend ▸ hlength, le_of_eq hend⟩]
        rfl
      · exact le_trans hnonneg hfirst
      · exact hinside
    | range start length =>
      simp only [Window.slice] at hfirst hlength hlast
      have hbegin := toInt_ofInt (n := w.first + start.toInt) (by omega) (by omega)
      have hsum := toInt_ofInt (n := w.first + start.toInt + length.toInt) (by omega) (by omega)
      refine ⟨⟨data, Int32.ofInt (w.first + start.toInt),
        Int32.ofInt (w.first + start.toInt + length.toInt), false⟩, ?_,
        ⟨rfl, hbegin, hsum, ?_, ?_⟩, rfl⟩
      · rw [slice, hposition, if_pos (by omega), pure_bind, getPositionFrom_eq h]
        simp only [hbegin]
        rw [if_pos (by omega), pure_bind, slicePositions_eq h, hsum, hbegin,
          if_pos ⟨hfirst, hlength, hlast⟩]
      · exact le_trans hnonneg hfirst
      · exact le_trans hlast hinside
    | fromOffset start =>
      simp only [Window.slice] at hfirst hlength hlast
      have hbegin := toInt_ofInt (n := w.first + start.toInt) (by omega) (by omega)
      refine ⟨⟨data, Int32.ofInt (w.first + start.toInt), q.end_, false⟩, ?_,
        ⟨rfl, hbegin, hend, ?_, ?_⟩, rfl⟩
      · rw [slice, hposition, if_pos (by omega), pure_bind, slicePositions_eq h, hbegin]
        exact if_pos ⟨hfirst, hend ▸ hlength, le_of_eq hend⟩
      · exact le_trans hnonneg hfirst
      · exact hinside
    | upTo start end_ =>
      simp only [Window.slice] at hfirst hlength hlast
      have hbegin := toInt_ofInt (n := w.first + start.toInt) (by omega) (by omega)
      refine ⟨⟨data, Int32.ofInt (w.first + start.toInt), end_.getInteger, false⟩, ?_,
        ⟨rfl, hbegin, rfl, ?_, ?_⟩, rfl⟩
      · rw [slice, hposition, if_pos (by omega), pure_bind, slicePositions_eq h, hbegin,
          if_pos ⟨hfirst, hlength, hlast⟩]
      · exact le_trans hnonneg hfirst
      · exact le_trans hlast hinside
    | rangeFrom start length =>
      simp only [Window.slice] at hfirst hlength hlast
      have hsum := toInt_ofInt (n := start.getInteger.toInt + length.toInt) (by omega) (by omega)
      refine ⟨⟨data, start.getInteger, Int32.ofInt (start.getInteger.toInt + length.toInt), false⟩,
        ?_, ⟨rfl, rfl, hsum, ?_, ?_⟩, rfl⟩
      · rw [slice, getPositionFrom_eq h, if_pos (by omega), pure_bind, slicePositions_eq h, hsum,
          if_pos ⟨hfirst, hlength, hlast⟩]
      · exact le_trans hnonneg hfirst
      · exact le_trans hlast hinside
  case isFalse hout =>
    have hnot : ∀ {start end_ : SequencePosition},
        (⟨start.getInteger.toInt, end_.getInteger.toInt⟩ : Window) = w.slice call →
        q.slicePositions start end_ = Run.throwing (.outOfRange "start") := by
      intro start end_ heq
      rw [slicePositions_eq h, heq, if_neg hout]
    cases call with
    | positions start end_ => exact ⟨"start", hnot rfl⟩
    | fromPosition start =>
      refine ⟨"start", hnot ?_⟩
      rw [Window.slice, ← hend]
      rfl
    | range start length =>
      refine ⟨"offset", ?_⟩
      rw [slice, hposition]
      split
      case isTrue hbegin =>
        simp only [Contains, Window.slice] at hout
        have hexact := toInt_ofInt (n := w.first + start.toInt) (by omega) (by omega)
        rw [pure_bind, getPositionFrom_eq h]
        simp only [hexact]
        rw [if_neg (by omega), Run.throwing_bind]
      case isFalse hbegin => rw [Run.throwing_bind]
    | fromOffset start =>
      rw [slice, hposition]
      split
      case isTrue hbegin =>
        simp only [Contains, Window.slice] at hout
        omega
      case isFalse hbegin => exact ⟨"offset", Run.throwing_bind _ _⟩
    | upTo start end_ =>
      rw [slice, hposition]
      split
      case isTrue hbegin =>
        have hexact := toInt_ofInt (n := w.first + start.toInt) (by omega) (by omega)
        refine ⟨"start", ?_⟩
        apply hnot
        rw [Window.slice, hexact]
      case isFalse hbegin => exact ⟨"offset", Run.throwing_bind _ _⟩
    | rangeFrom start length =>
      simp only [Contains, Window.slice] at hout
      refine ⟨"offset", ?_⟩
      rw [slice, getPositionFrom_eq h, if_neg (by omega), Run.throwing_bind]

/-- A chain of slices represents the chain of views. -/
theorem sliceAll_represents (h : Represents q data w) (calls : List Call) :
    match w.sliceAll calls with
    | some last => ∃ result, q.sliceAll calls = pure result ∧ Represents result data last ∧
        (calls = [] ∧ result = q ∨ calls ≠ [] ∧ result.hasBuffer = false ∧ last.first ≤ last.last)
    | none => ∃ paramName, q.sliceAll calls = Run.throwing (.outOfRange paramName) := by
  induction calls generalizing q w with
  | nil => exact ⟨q, rfl, h, Or.inl ⟨rfl, rfl⟩⟩
  | cons call calls ih =>
    have hstep := slice_represents h call
    rw [Window.sliceAll]
    split at hstep
    case isTrue hin =>
      obtain ⟨result, hresult, hrepresents, hbuffer⟩ := hstep
      have hrun : q.sliceAll (call :: calls) = result.sliceAll calls := by
        rw [ReadOnlySequence.sliceAll, hresult, pure_bind]
      have hrest := ih hrepresents
      rw [if_pos hin, hrun]
      cases hlast : (w.slice call).sliceAll calls with
      | none =>
        rw [hlast] at hrest
        exact hrest
      | some last =>
        rw [hlast] at hrest
        obtain ⟨final, hfinal, hfinalRepresents, hcase⟩ := hrest
        refine ⟨final, hfinal, hfinalRepresents, Or.inr ⟨List.cons_ne_nil _ _, ?_⟩⟩
        rcases hcase with ⟨rfl, rfl⟩ | ⟨-, hfinalBuffer, hle⟩
        · obtain rfl : w.slice call = last := by simpa [Window.sliceAll] using hlast
          exact ⟨hbuffer, hin.2.1⟩
        · exact ⟨hfinalBuffer, hle⟩
    case isFalse hout => grind [ReadOnlySequence.sliceAll, Run.throwing_bind]

theorem elements_eq (h : Represents q data w) (hle : w.first ≤ w.last) :
    q.elements w.first w.last = pure (w.elements data) := by
  have hnonneg := h.nonneg
  have hinside := h.inside
  rw [ReadOnlySequence.elements, h.data_eq, Run.observe_eq_pure ⟨hnonneg, hle, hinside⟩, pure_bind]
  rfl

theorem length_elements (h0 : 0 ≤ w.first) (hle : w.first ≤ w.last)
    (hinside : w.last ≤ data.length) : ((w.elements data).length : ℤ) = w.last - w.first := by
  grind [Window.elements]

theorem elements_eq_nil (h : w.last ≤ w.first) : w.elements data = [] := by
  rw [Window.elements, show (w.last - w.first).toNat = 0 by omega, List.take_zero]

theorem first_eq (h : Represents q data w)
    (hle : w.first ≤ w.last) : q.first = pure (w.elements data) := by
  have hstart := h.start_eq
  have hend := h.end_eq
  have hnonneg := h.nonneg
  have hendhi := q.end_.toInt_lt
  rw [first, getIsEmptyProperty]
  simp only [decide_eq_true_eq, Int32.le_iff_toInt_le, hstart, hend]
  split
  case isTrue hempty => rw [elements_eq_nil hempty]
  case isFalse hfull =>
    rw [Run.signed_eq_pure (by decide) (by omega) (by omega), pure_bind,
      show w.first + (w.last - w.first) = w.last by omega, elements_eq h hle]

theorem toArray_eq (h : Represents q data w)
    (hle : w.first ≤ w.last) : q.toArray = pure (w.elements data) := by
  rw [toArray, h.start_eq, h.end_eq, elements_eq h hle]

theorem copyTo_eq (h : Represents q data w) (hle : w.first ≤ w.last) (destination : List α) :
    q.copyTo destination =
      if destination.length < (w.elements data).length then
        Run.throwing (.outOfRange "destination")
      else pure (w.elements data ++ destination.drop (w.elements data).length) := by
  have hend := h.end_eq
  have hnonneg := h.nonneg
  have hendhi := q.end_.toInt_lt
  have hlength := length_elements hnonneg hle h.inside
  rw [copyTo, h.start_eq, hend, Run.signed_eq_pure (by decide) (by omega) (by omega), pure_bind,
    elements_eq h hle, pure_bind]
  exact if_congr (by omega) rfl rfl

theorem fragments_eq (h : Represents q data w) (hle : w.first ≤ w.last) :
    ∃ found, q.fragments 2 q.getStartProperty = pure found ∧ found.flatten = w.elements data := by
  have hstart := h.start_eq
  have hend := h.end_eq
  have hnonneg := h.nonneg
  have hendhi := q.end_.toInt_lt
  have hlast : ∀ position : SequencePosition, position.getInteger.toInt = w.last →
      q.tryGet position true = pure (false, [], position) := by
    intro position hposition
    rw [tryGet]
    simp only [Int32.lt_iff_toInt_lt, Int32.le_iff_toInt_le, hposition, hstart, hend]
    rw [if_neg (by omega), if_pos (le_refl _)]
  have hdone : ∀ position : SequencePosition, position.getInteger.toInt = w.last → ∀ fuel,
      q.fragments (fuel + 1) position = pure [] := by
    intro position hposition fuel
    grind [ReadOnlySequence.fragments]
  by_cases hempty : w.first = w.last
  · refine ⟨[], hdone _ (hstart.trans hempty) 1, ?_⟩
    rw [elements_eq_nil (le_of_eq hempty.symm), List.flatten_nil]
  · refine ⟨[w.elements data], ?_, List.flatten_singleton⟩
    have hfirst : q.tryGet q.getStartProperty true =
        pure (true, w.elements data, q.getEndProperty) := by
      rw [tryGet]
      simp only [getStartProperty, Int32.lt_iff_toInt_lt, Int32.le_iff_toInt_le, hstart, hend]
      rw [if_neg (by omega), if_neg (by omega), Run.signed_eq_pure (by decide) (by omega) (by omega),
        pure_bind, show w.first + (w.last - w.first) = w.last by omega, elements_eq h hle, pure_bind]
      rfl
    rw [ReadOnlySequence.fragments, hfirst, pure_bind]
    simp only [if_true]
    rw [hdone _ hend 0, pure_bind]

theorem segments_of_buffer
    (h : Represents q data w) (hle : w.first ≤ w.last) (hbuffer : q.hasBuffer = true) :
    q.segments 2 getEnumerator = pure [w.elements data] := by
  have hfirst : q.moveNext ⟨-1⟩ = pure (true, ⟨0⟩) := by
    rw [moveNext, hbuffer]
    rfl
  have hsecond : q.moveNext ⟨0⟩ = pure (false, ⟨1⟩) := by
    rw [moveNext, hbuffer]
    rfl
  have hrest : q.segments 1 ⟨0⟩ = pure [] := by
    rw [segments, hsecond, pure_bind]
    rfl
  rw [segments, getEnumerator, hfirst, pure_bind]
  simp only [if_true, getCurrentProperty, first_eq h hle, pure_bind, hrest]

theorem segments_of_not_buffer (hbuffer : q.hasBuffer = false) (fuel : ℕ)
    (e : Enumerator) : q.segments (fuel + 1) e = pure [] := by grind [moveNext, segments]

theorem shows_iff (h : Represents q data w) :
    Shows q (w.elements data) ↔ w.first ≤ w.last ∧ (q.hasBuffer = true ∨ w.first = w.last) := by
  constructor
  · intro hshows
    have hle : w.first ≤ w.last := by
      -- `toArray` would read outside of the buffer
      by_contra hnot
      have harray := congrArg Run.clean hshows.toArray
      rw [toArray, ReadOnlySequence.elements, h.start_eq, h.end_eq,
        Run.clean_bind_of_not (decide_eq_false (by omega))] at harray
      cases harray
    refine ⟨hle, ?_⟩
    cases hbuffer : q.hasBuffer with
    | true => exact Or.inl rfl
    | false =>
      obtain ⟨fuel, found, hfound, hflatten⟩ := hshows.enumerated
      have hnil : w.elements data = [] := by
        cases fuel with
        | zero => cases hfound
        | succ fuel => grind [segments_of_not_buffer, Run.pure_inj]
      have hlength := length_elements h.nonneg hle h.inside
      grind
  · rintro ⟨hle, hcase⟩
    refine ⟨?_, ?_, first_eq h hle, toArray_eq h hle, copyTo_eq h hle⟩
    · cases hbuffer : q.hasBuffer with
      | true =>
        exact ⟨2, _, segments_of_buffer h hle hbuffer, List.flatten_singleton⟩
      | false =>
        have hempty : w.first = w.last := by grind
        refine ⟨1, [], segments_of_not_buffer hbuffer 0 _, ?_⟩
        rw [elements_eq_nil (le_of_eq hempty.symm), List.flatten_nil]
    · obtain ⟨found, hfound, hflatten⟩ := fragments_eq h hle
      exact ⟨2, found, hfound, hflatten⟩

theorem represents_of_ofBuffer {b : Buffer α} (h : ofBuffer b = pure q) :
    Represents q q.data ⟨0, q.end_.toInt⟩ ∧ q.start.toInt = 0 ∧ q.hasBuffer = true := by
  have hvector : ∀ data : List α,
      Represents (ofVector data) data ⟨0, (ofVector data).end_.toInt⟩ := by
    intro data
    refine ⟨rfl, rfl, rfl, le_refl _, ?_⟩
    change (Int32.ofInt (data.length : ℤ)).toInt ≤ (data.length : ℤ)
    have hsize : (Int32.size : ℤ) = 2 ^ 32 := rfl
    rw [Int32.toInt_ofInt, Int.bmod_def, hsize]
    split <;> omega
  obtain ⟨data, rfl⟩ : ∃ data, ofVector data = q := by
    cases b with
    | vector data =>
      rw [ofBuffer, Run.pure_inj] at h
      exact ⟨data, h⟩
    | pointer ptr length =>
      obtain ⟨data, -, hdata⟩ := Run.map_eq_pure.mp h
      exact ⟨data, hdata⟩
  exact ⟨hvector data, rfl, rfl⟩

/-- **When the views of a sequence agree**: along a chain of slices of a sequence built from a
buffer, exactly when no slice was taken, or the last one is empty, or one of them throws. -/
theorem slicesAgree_iff (b : Buffer α) (q : ReadOnlySequence α) (calls : List Call)
    (h : ofBuffer b = pure q) :
    SlicesAgree q calls ↔ ∀ w ∈ (⟨0, q.end_.toInt⟩ : Window).sliceAll calls,
      w.first ≤ w.last ∧ (calls = [] ∨ w.first = w.last) := by
  obtain ⟨hrepresents, hstart, hbuffer⟩ := represents_of_ofBuffer h
  have hchain := sliceAll_represents hrepresents calls
  rw [SlicesAgree, hstart]
  cases hlast : (⟨0, q.end_.toInt⟩ : Window).sliceAll calls with
  | none =>
    grind
  | some w => grind [Run.pure_inj, shows_iff]

/-- A chain of two slices whose second is empty. -/
theorem slicesAgree_iff_empty_tail :
    SlicesAgree (ofVector [1, 2, 3]) [.range 1 2, .fromOffset 2] ↔
      ∀ w ∈ (⟨0, (ofVector [1, 2, 3]).end_.toInt⟩ : Window).sliceAll [.range 1 2, .fromOffset 2],
        w.first ≤ w.last ∧ ([Call.range 1 2, .fromOffset 2] = [] ∨ w.first = w.last) :=
  slicesAgree_iff (.vector [1, 2, 3]) (ofVector [1, 2, 3]) _ rfl

/-- The first two of three elements, as a slice: the enumerator yields none of them. -/
theorem slice_enumerates_nothing :
    ¬ SlicesAgree (ofVector [1, 2, 3]) [.range 0 2] := by
  rintro ⟨result, hresult, hshows⟩
  have hslice : (ofVector [1, 2, 3]).sliceAll [.range 0 2] = pure ⟨[1, 2, 3], 0, 2, false⟩ := by
    decide
  rw [hslice, Run.pure_inj] at hresult
  subst hresult
  obtain ⟨fuel, found, hfound, hflatten⟩ := hshows.enumerated
  cases fuel with
  | zero => cases hfound
  | succ fuel =>
    rw [segments_of_not_buffer rfl, Run.pure_inj] at hfound
    rw [← hfound] at hflatten
    cases hflatten

end SharpRuntime.Analysis.SequenceViews
