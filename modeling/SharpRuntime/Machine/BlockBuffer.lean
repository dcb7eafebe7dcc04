import SharpRuntime.Machine.Run
import SharpRuntime.Machine.Bytes

/-!
# Blocks

A stream is consumed in blocks of `size` elements: a state is moved on by each whole block, and what
is left after the last one waits.  Both depend on the stream only, not on the pieces it arrived in
(`blocks_append`, `rest_append`).  `Run.whileLoop_blocks` is the rule for loops that read a buffer
block by block.
-/

set_option autoImplicit false

namespace Machine

variable {σ α : Type}

def consumeBlocks (size : ℕ) (consume : σ → List α → σ) : ℕ → σ → List α → σ
  | 0, v, _ => v
  | n + 1, v, s => consumeBlocks size consume n (consume v (s.take size)) (s.drop size)

def blocks (size : ℕ) (consume : σ → List α → σ) (v : σ) (s : List α) : σ :=
  consumeBlocks size consume (s.length / size) v s

def rest (size : ℕ) (s : List α) : List α := s.drop (s.length / size * size)

variable {size : ℕ} {consume : σ → List α → σ}

theorem length_rest (s : List α) : (rest size s).length = s.length % size := by
  rw [rest, List.length_drop, Nat.mod_def, Nat.mul_comm]

theorem length_rest_lt (hsize : 0 < size) (s : List α) : (rest size s).length < size := by
  rw [length_rest]
  exact Nat.mod_lt _ hsize

variable {s : List α}

theorem rest_of_lt (h : s.length < size) : rest size s = s := by
  rw [rest, Nat.div_eq_of_lt h, Nat.zero_mul, List.drop_zero]

theorem blocks_of_lt (v : σ) (h : s.length < size) : blocks size consume v s = v := by
  rw [blocks, Nat.div_eq_of_lt h]
  rfl

theorem div_length_of_le (hsize : 0 < size) (h : size ≤ s.length) :
    s.length / size = (s.drop size).length / size + 1 := by
  rw [List.length_drop, ← Nat.add_div_right _ hsize, Nat.sub_add_cancel h]

theorem blocks_of_le (v : σ) (hsize : 0 < size) (h : size ≤ s.length) :
    blocks size consume v s = blocks size consume (consume v (s.take size)) (s.drop size) := by
  rw [blocks, div_length_of_le hsize h]
  rfl

theorem rest_of_le (hsize : 0 < size) (h : size ≤ s.length) :
    rest size s = rest size (s.drop size) := by
  rw [rest, rest, List.drop_drop, div_length_of_le hsize h, Nat.succ_mul, Nat.add_comm]

variable {b : List α}

theorem blocks_block (hsize : 0 < size) (hb : b.length = size) (v : σ) (s : List α) :
    blocks size consume v (b ++ s) = blocks size consume (consume v b) s := by grind [blocks_of_le]

theorem rest_block (hsize : 0 < size) (hb : b.length = size) (s : List α) :
    rest size (b ++ s) = rest size s := by grind [rest_of_le]

/-- Whatever is shorter than a block, and then one block more in front. -/
theorem block_induction {P : List α → Prop} (hsize : 0 < size) (hshort : ∀ s, s.length < size → P s)
    (hblock : ∀ b s, b.length = size → P s → P (b ++ s)) (s : List α) : P s := by
  induction hn : s.length using Nat.strong_induction_on generalizing s with
  | _ n ih =>
    by_cases hlt : s.length < size
    · exact hshort s hlt
    · rw [← List.take_append_drop size s]
      exact hblock _ _ (List.length_take_of_le (by omega)) (ih _ (by simp; omega) _ rfl)

/-- Consuming two pieces one after the other is consuming the whole, with the rest of the first put
in front of the second. -/
theorem blocks_append (hsize : 0 < size) (v : σ) (s t : List α) :
    blocks size consume v (s ++ t)
      = blocks size consume (blocks size consume v s) (rest size s ++ t) := by
  induction s using block_induction hsize generalizing v with
  | hshort s hlt => rw [blocks_of_lt v hlt, rest_of_lt hlt]
  | hblock b s hb ih =>
    rw [List.append_assoc, blocks_block hsize hb, blocks_block hsize hb, rest_block hsize hb, ih]

/-- What waits after two pieces is what waits of the waiting part and the second. -/
theorem rest_append (hsize : 0 < size) (s t : List α) :
    rest size (s ++ t) = rest size (rest size s ++ t) := by
  induction s using block_induction hsize with
  | hshort s hlt => rw [rest_of_lt hlt]
  | hblock b s hb ih => rw [List.append_assoc, rest_block hsize hb, rest_block hsize hb, ih]

theorem blocks_replicate {v : σ} (hsize : 0 < size) (hb : b.length = size)
    (hfix : consume v b = v) (n : ℕ) :
    blocks size consume v (List.replicate n b).flatten = v := by
  induction n with
  | zero => exact blocks_of_lt v hsize
  | succ n ih => rw [List.replicate_succ, List.flatten_cons, blocks_block hsize hb, hfix, ih]

theorem blocks_one {step : σ → α → σ} (d : α) (v : σ) (s : List α) :
    blocks 1 (fun v b => step v (b.headD d)) v s = s.foldl step v := by
  induction s generalizing v with
  | nil => exact blocks_of_lt v Nat.one_pos
  | cons a s ih =>
    rw [← List.singleton_append, blocks_block Nat.one_pos rfl, ih]
    rfl

theorem blocks_map {τ : Type} {move : τ → List α → τ} (g : σ → τ → τ) (get : τ → σ)
    (hget : ∀ v u, get (g v u) = v) (hg : ∀ v w u, g v (g w u) = g v u)
    (hself : ∀ u, g (get u) u = u)
    (hmove : ∀ u b, b.length = size → move u b = g (consume (get u) b) u) (hsize : 0 < size) (u : τ)
    (s : List α) : blocks size move u s = g (blocks size consume (get u) s) u := by
  induction s using block_induction hsize generalizing u with
  | hshort s hlt => rw [blocks_of_lt u hlt, blocks_of_lt _ hlt, hself]
  | hblock b s hb ih =>
    rw [blocks_block hsize hb, blocks_block hsize hb, ih, hmove u b hb, hget, hg]

variable {buf : List α} {stop : ℕ}

theorem rest_window (hstop : stop ≤ buf.length) (p : ℕ) : rest size (window buf stop p)
      = window buf stop (stop - (rest size (window buf stop p)).length) := by
  have hlength := length_window hstop p
  have hdiv := Nat.div_add_mod' (stop - p) size
  by_cases hp : p ≤ stop
  · grind [rest, drop_window]
  · have hempty : window buf stop p = [] := window_nil hstop (by omega)
    have hrest : rest size ([] : List α) = [] := List.drop_nil
    rw [hempty, hrest, List.length_nil, Nat.sub_zero]
    exact (window_nil hstop (by omega)).symm

/-- A loop that takes blocks of a buffer, from position `p` on, while a whole one is left before
position `stop`.  Its state is `mk v p`. -/
theorem Run.whileLoop_blocks {ε τ : Type} (consume : σ → List α → σ) (mk : σ → ℕ → τ)
    {cond : τ → Bool} {body : τ → Run ε τ} (hsize : 0 < size)
    (hstop : stop ≤ buf.length)
    (hcond : ∀ v p, p ≤ stop → cond (mk v p) = decide (p + size ≤ stop))
    (hbody : ∀ v p, p + size ≤ stop →
      body (mk v p) = pure (mk (consume v ((buf.drop p).take size)) (p + size)))
    {fuel p : ℕ} (hp : p ≤ stop) (hfuel : stop ≤ p + fuel) (v : σ) :
    Run.whileLoop cond body fuel (mk v p)
      = pure (mk (blocks size consume v (window buf stop p))
          (stop - (rest size (window buf stop p)).length)) := by
  have hlength := length_window hstop
  induction fuel generalizing p v with
  | zero =>
    have hlt : (window buf stop p).length < size := by
      rw [hlength]
      omega
    have hc : cond (mk v p) = false := by
      rw [hcond v p hp, decide_eq_false_iff_not]
      omega
    rw [Run.whileLoop_of_not hc, blocks_of_lt v hlt, rest_of_lt hlt, hlength, Nat.sub_sub_self hp]
  | succ fuel ih =>
    by_cases hle : p + size ≤ stop
    · have hc : cond (mk v p) = true := by
        rw [hcond v p hp]
        exact decide_eq_true hle
      have hlong : size ≤ (window buf stop p).length := by
        rw [hlength]
        omega
      have htake : (window buf stop p).take size = (buf.drop p).take size := by
        rw [window, List.drop_take, List.take_take, Nat.min_eq_left (by omega)]
      rw [Run.whileLoop_step hc (hbody v p hle), ih hle (by omega), blocks_of_le v hsize hlong,
        rest_of_le hsize hlong, drop_window, htake]
    · have hlt : (window buf stop p).length < size := by
        rw [hlength]
        omega
      have hc : cond (mk v p) = false := by
        rw [hcond v p hp, decide_eq_false_iff_not]
        exact hle
      rw [Run.whileLoop_of_not hc, blocks_of_lt v hlt, rest_of_lt hlt, hlength,
        Nat.sub_sub_self hp]

/-- A loop that takes what is left of a buffer one by one. -/
theorem Run.whileLoop_each {ε τ : Type} (step : σ → α → σ) (mk : σ → ℕ → τ) {cond : τ → Bool}
    {body : τ → Run ε τ} (d : α) (hstop : stop ≤ buf.length)
    (hcond : ∀ v p, p ≤ stop → cond (mk v p) = decide (p + 1 ≤ stop))
    (hbody : ∀ v p, p + 1 ≤ stop → body (mk v p) = pure (mk (step v (buf.getD p d)) (p + 1)))
    {fuel p : ℕ} (hp : p ≤ stop) (hfuel : stop ≤ p + fuel) (v : σ) :
    Run.whileLoop cond body fuel (mk v p) = pure (mk ((window buf stop p).foldl step v) stop) := by
  have hrest : rest 1 (window buf stop p) = [] := by
    rw [← List.length_eq_zero_iff, length_rest, Nat.mod_one]
  rw [Run.whileLoop_blocks (fun v b => step v (b.headD d)) mk Nat.one_pos hstop hcond
    (fun v p hp => ?_) hp hfuel v, blocks_one, hrest, List.length_nil, Nat.sub_zero]
  rw [hbody v p hp, List.drop_eq_getElem_cons (by omega), List.getD_eq_getElem _ _ (by omega)]
  rfl

end Machine
