import Mathlib

/-!
# The longest run of a list

One pass over a list that keeps the run that is going on and the longest one so far, where the first
of several longest ones is kept.
-/

set_option autoImplicit false

namespace Machine

variable {α : Type}

/-- The elements from `start` on, `len` of them, have the property. -/
structure IsRun (p : α → Bool) (xs : List α) (start len : ℕ) : Prop where
  fits : start + len ≤ xs.length
  holds : ∀ i x, start ≤ i → i < start + len → xs[i]? = some x → p x = true

/-- No run is longer, and no run before it is as long. -/
structure FirstLongest (p : α → Bool) (xs : List α) (start len : ℕ) : Prop where
  run : IsRun p xs start len
  longest : ∀ s l, IsRun p xs s l → l ≤ len
  first : ∀ s, IsRun p xs s len → start ≤ s

/-- What a pass knows. -/
structure RunScan where
  bestStart : Option ℕ
  bestLen : ℕ
  curStart : Option ℕ
  curLen : ℕ

namespace RunScan

def initial : RunScan := ⟨none, 0, none, 0⟩

def step (p : α → Bool) (i : ℕ) (st : RunScan) (x : α) : RunScan :=
  if p x then
    let curStart := st.curStart.getD i
    let curLen := st.curLen + 1
    if st.bestLen < curLen then ⟨some curStart, curLen, some curStart, curLen⟩
    else ⟨st.bestStart, st.bestLen, some curStart, curLen⟩
  else ⟨st.bestStart, st.bestLen, none, 0⟩

def scan (p : α → Bool) : (i : ℕ) → RunScan → List α → RunScan
  | _, st, [] => st
  | i, st, x :: xs => scan p (i + 1) (st.step p i x) xs

end RunScan

variable {p : α → Bool} {xs : List α} {x : α} {s l : ℕ}

theorem isRun_concat (hpos : 0 < l) : IsRun p (xs ++ [x]) s l ↔
    IsRun p xs s l ∨ s + l = xs.length + 1 ∧ p x = true ∧ IsRun p xs s (l - 1) := by
  constructor
  · rintro ⟨hfits, hholds⟩
    rw [List.length_append, List.length_singleton] at hfits
    have hbefore : ∀ n, s + n ≤ xs.length → n ≤ l → IsRun p xs s n := by
      intro n hn hle
      refine ⟨hn, fun i y hi hlt hy => hholds i y hi (by omega) ?_⟩
      rw [List.getElem?_append_left (by omega), hy]
    by_cases hle : s + l ≤ xs.length
    · exact Or.inl (hbefore l hle (Nat.le_refl l))
    · refine Or.inr ⟨by omega, hholds xs.length x (by omega) (by omega) ?_, hbefore (l - 1) (by omega)
        (by omega)⟩
      rw [List.getElem?_append_right (Nat.le_refl _), Nat.sub_self]
      rfl
  · rintro (⟨hfits, hholds⟩ | ⟨hend, hx, hfits, hholds⟩)
    · refine ⟨by rw [List.length_append]; omega, fun i y hi hlt hy => hholds i y hi hlt ?_⟩
      rwa [List.getElem?_append_left (by omega)] at hy
    · refine ⟨by rw [List.length_append, List.length_singleton]; omega, fun i y hi hlt hy => ?_⟩
      by_cases hlast : i < xs.length
      · rw [List.getElem?_append_left hlast] at hy
        exact hholds i y hi (by omega) hy
      · grind

theorem isRun_zero (h : s ≤ xs.length) : IsRun p xs s 0 := ⟨h, fun _ _ hi hlt => absurd hlt (by omega)⟩

namespace RunScan

/-- What a pass knows of the elements `xs` that it has gone over. -/
structure Knows (p : α → Bool) (xs : List α) (st : RunScan) : Prop where
  best_run : IsRun p xs (st.bestStart.getD 0) st.bestLen
  best_some : 0 < st.bestLen → st.bestStart.isSome = true
  longest : ∀ s l, IsRun p xs s l → l ≤ st.bestLen
  first : ∀ s, 0 < st.bestLen → IsRun p xs s st.bestLen → st.bestStart.getD 0 ≤ s
  cur_end : st.curStart.getD xs.length + st.curLen = xs.length
  cur_run : IsRun p xs (st.curStart.getD xs.length) st.curLen
  cur_longest : ∀ s l, s + l = xs.length → IsRun p xs s l → l ≤ st.curLen

theorem knows_initial : Knows p [] initial where
  best_run := isRun_zero (Nat.le_refl 0)
  best_some hpos := absurd hpos (Nat.lt_irrefl 0)
  longest s l h := by
    have hfits := h.fits
    rw [List.length_nil] at hfits
    omega
  first _ hpos := absurd hpos (Nat.lt_irrefl 0)
  cur_end := rfl
  cur_run := isRun_zero (Nat.le_refl 0)
  cur_longest s l hend _ := by
    rw [List.length_nil] at hend
    omega

theorem isRun_append_left (h : IsRun p xs s l) (ys : List α) : IsRun p (xs ++ ys) s l := by
  refine ⟨by rw [List.length_append]; exact Nat.le_trans h.fits (Nat.le_add_right _ _), ?_⟩
  intro i y hi hlt hy
  have hfits := h.fits
  rw [List.getElem?_append_left (by omega)] at hy
  exact h.holds i y hi hlt hy

variable {st : RunScan}

theorem knows_step (h : Knows p xs st) (x : α) : Knows p (xs ++ [x]) (st.step p xs.length x) := by
  have hlength : (xs ++ [x]).length = xs.length + 1 := by
    rw [List.length_append, List.length_singleton]
  by_cases hx : p x = true
  · -- the run that is going on takes the element
    obtain ⟨c, hc⟩ : ∃ c, st.curStart.getD xs.length = c := ⟨_, rfl⟩
    have hend := h.cur_end
    have hcur := h.cur_run
    rw [hc] at hend hcur
    have hrun : IsRun p (xs ++ [x]) c (st.curLen + 1) :=
      (isRun_concat (Nat.succ_pos _)).mpr (Or.inr ⟨by omega, hx, hcur⟩)
    have hlast : ∀ s l, s + l = (xs ++ [x]).length → IsRun p (xs ++ [x]) s l → l ≤ st.curLen + 1 := by
      intro s l hsum hsl
      by_cases hpos : 0 < l
      · obtain hsl | ⟨-, -, hsl⟩ := (isRun_concat hpos).mp hsl
        · have hfits := hsl.fits
          omega
        · have hle := h.cur_longest s (l - 1) (by omega) hsl
          omega
      · omega
    by_cases hmore : st.bestLen < st.curLen + 1
    · have hstep : st.step p xs.length x = ⟨some c, st.curLen + 1, some c, st.curLen + 1⟩ := by
        simp only [step, hx, if_true, hc, if_pos hmore]
      rw [hstep]
      refine ⟨hrun, fun _ => rfl, ?_, ?_, ?_, hrun, hlast⟩
      · intro s l hsl
        by_cases hpos : 0 < l
        · obtain hbefore | ⟨hsum, -, -⟩ := (isRun_concat hpos).mp hsl
          · have hle := h.longest s l hbefore
            dsimp only
            omega
          · exact hlast s l (by omega) hsl
        · omega
      · intro s _ hsl
        dsimp only [Option.getD_some] at hsl ⊢
        obtain hbefore | ⟨hsum, -, -⟩ := (isRun_concat (Nat.succ_pos _)).mp hsl
        · have hle := h.longest s _ hbefore
          omega
        · omega
      · dsimp only [Option.getD_some]
        omega
    · have hstep : st.step p xs.length x = ⟨st.bestStart, st.bestLen, some c, st.curLen + 1⟩ := by
        simp only [step, hx, if_true, hc, if_neg hmore]
      rw [hstep]
      refine ⟨isRun_append_left h.best_run [x], h.best_some, ?_, ?_, ?_, hrun, hlast⟩
      · intro s l hsl
        by_cases hpos : 0 < l
        · obtain hbefore | ⟨hsum, -, -⟩ := (isRun_concat hpos).mp hsl
          · exact h.longest s l hbefore
          · have hle := hlast s l (by omega) hsl
            dsimp only
            omega
        · omega
      · intro s hpos hsl
        dsimp only at hpos hsl ⊢
        obtain hbefore | ⟨hsum, -, -⟩ := (isRun_concat hpos).mp hsl
        · exact h.first s hpos hbefore
        · have hfits := h.best_run.fits
          omega
      · dsimp only [Option.getD_some]
        omega
  · -- no run goes on
    have hstep : st.step p xs.length x = ⟨st.bestStart, st.bestLen, none, 0⟩ := by
      simp only [step, if_neg hx]
    have hbefore : ∀ s l, IsRun p (xs ++ [x]) s l → l = 0 ∨ IsRun p xs s l := by
      intro s l hsl
      by_cases hpos : 0 < l
      · obtain hsl | ⟨-, hpx, -⟩ := (isRun_concat hpos).mp hsl
        · exact Or.inr hsl
        · exact absurd hpx hx
      · exact Or.inl (by omega)
    rw [hstep]
    refine ⟨isRun_append_left h.best_run [x], h.best_some, ?_, ?_, ?_, isRun_zero (Nat.le_refl _), ?_⟩
    · intro s l hsl
      obtain rfl | hsl := hbefore s l hsl
      · exact Nat.zero_le _
      · exact h.longest s l hsl
    · intro s hpos hsl
      obtain hzero | hsl := hbefore s _ hsl
      · omega
      · exact h.first s hpos hsl
    · simp
    · intro s l hsum hsl
      obtain rfl | hsl := hbefore s l hsl
      · exact Nat.le_refl 0
      · have hfits := hsl.fits
        omega

theorem knows_scan (h : Knows p xs st) (ys : List α) :
    Knows p (xs ++ ys) (scan p xs.length st ys) := by
  induction ys generalizing xs st with
  | nil => rwa [List.append_nil]
  | cons y ys ih =>
    have hrest := ih (knows_step h y)
    rwa [List.append_assoc, List.length_append, List.length_singleton] at hrest

/-- **A pass finds the first of the longest runs**, if there is a run at all. -/
theorem scan_initial (p : α → Bool) (xs : List α) :
    let st := scan p 0 initial xs
    (∀ s l, IsRun p xs s l → l ≤ st.bestLen) ∧
      (0 < st.bestLen → ∃ start, st.bestStart = some start ∧ FirstLongest p xs start st.bestLen) := by
  intro st
  have h : Knows p xs st := knows_scan knows_initial xs
  refine ⟨h.longest, fun hpos => ?_⟩
  obtain ⟨start, hstart⟩ := Option.isSome_iff_exists.mp (h.best_some hpos)
  have hrun := h.best_run
  have hfirst := h.first
  rw [hstart] at hrun hfirst
  exact ⟨start, hstart, hrun, h.longest, fun s hs => hfirst s hpos hs⟩

end RunScan

end Machine
