import Mathlib

/-!
# Tapes

A tape is a finite sequence of cells and a position, which may lie past its end.  To read is to
take the cells from the position on, as many as there are; to write is to lay new cells over the
old ones, with blank cells in front of them where the tape ends before the position.  Two writes
in a row are one write, and what was written is what is read there.
-/

set_option autoImplicit false

namespace Machine

variable {β : Type}

section Overlay

variable [Zero β]

/-- The cells of `c` in front of `p`, blank where there are none. -/
def zeroPadded (c : List β) (p : ℕ) : List β := c.take p ++ List.replicate (p - c.length) 0

def overlay (c : List β) (p : ℕ) (data : List β) : List β :=
  zeroPadded c p ++ (data ++ c.drop (p + data.length))

theorem length_zeroPadded (c : List β) (p : ℕ) : (zeroPadded c p).length = p := by
  rw [zeroPadded, List.length_append, List.length_take, List.length_replicate]
  omega

variable {c : List β} {p : ℕ}

theorem zeroPadded_of_le (h : p ≤ c.length) : zeroPadded c p = c.take p := by
  rw [zeroPadded, Nat.sub_eq_zero_of_le h, List.replicate_zero, List.append_nil]

theorem length_overlay (c : List β) (p : ℕ) (data : List β) :
    (overlay c p data).length = max c.length (p + data.length) := by
  rw [overlay, List.length_append, List.length_append, length_zeroPadded, List.length_drop]
  omega

theorem drop_overlay (c : List β) (p : ℕ) (data : List β) :
    (overlay c p data).drop p = data ++ c.drop (p + data.length) := by
  rw [overlay, List.drop_left' (length_zeroPadded c p)]

theorem zeroPadded_overlay (c : List β) (p : ℕ) (data : List β) :
    zeroPadded (overlay c p data) (p + data.length) = zeroPadded c p ++ data := by
  grind [length_zeroPadded, zeroPadded_of_le, overlay]

theorem overlay_append (c : List β) (p : ℕ) (a b : List β) :
    overlay (overlay c p a) (p + a.length) b = overlay c p (a ++ b) := by
  have hrest : (overlay c p a).drop (p + a.length + b.length)
      = c.drop (p + (a ++ b).length) := by
    rw [← List.drop_drop, ← List.drop_drop, drop_overlay, List.drop_left, List.drop_drop,
      List.length_append, Nat.add_assoc]
  rw [overlay, zeroPadded_overlay, hrest, overlay, List.append_assoc, List.append_assoc]

theorem overlay_before (h : p ≤ c.length) (a b : List β) :
    overlay (overlay c (p + a.length) b) p a = overlay c p (a ++ b) := by
  have hle : p ≤ (overlay c (p + a.length) b).length := by
    rw [length_overlay]
    exact Nat.le_trans h (Nat.le_max_left _ _)
  have hfront : (overlay c (p + a.length) b).take p = c.take p := by grind [overlay, zeroPadded]
  rw [overlay, zeroPadded_of_le hle, hfront, drop_overlay, overlay, zeroPadded_of_le h,
    List.append_assoc, List.length_append, Nat.add_assoc]

theorem overlay_zeroPadded {data : List β} (h : c.length ≤ p + data.length) :
    overlay (zeroPadded c (p + data.length)) p data = overlay c p data := by
  have hfront : zeroPadded (zeroPadded c (p + data.length)) p = zeroPadded c p := by
    have hle : p ≤ (zeroPadded c (p + data.length)).length := by
      rw [length_zeroPadded]
      exact Nat.le_add_right _ _
    rw [zeroPadded_of_le hle, zeroPadded, zeroPadded, List.take_append, List.take_take, List.take_replicate,
      List.length_take]
    congr 2
    · omega
    · omega
  have hback : (zeroPadded c (p + data.length)).drop (p + data.length) = c.drop (p + data.length) := by
    rw [List.drop_of_length_le (Nat.le_of_eq (length_zeroPadded _ _)),
      List.drop_of_length_le h]
  rw [overlay, hfront, hback, overlay]

theorem overlay_length (c data : List β) : overlay c c.length data = c ++ data := by
  rw [overlay, zeroPadded_of_le (Nat.le_refl _), List.take_length, List.drop_of_length_le
    (Nat.le_add_right _ _), List.append_nil]

end Overlay

/-- A sequence of cells and a position. -/
structure Tape (β : Type) where
  content : List β
  position : ℕ
deriving DecidableEq

namespace Tape

def rest (t : Tape β) : List β := t.content.drop t.position

def peek (t : Tape β) (n : ℕ) : List β := t.rest.take n

def moveTo (t : Tape β) (p : ℕ) : Tape β := { t with position := p }

def skip (t : Tape β) (n : ℕ) : Tape β := t.moveTo (t.position + n)

section Read

variable (t : Tape β)

@[simp] theorem content_moveTo (p : ℕ) : (t.moveTo p).content = t.content := rfl

@[simp] theorem position_moveTo (p : ℕ) : (t.moveTo p).position = p := rfl

@[simp] theorem moveTo_moveTo (p q : ℕ) : (t.moveTo p).moveTo q = t.moveTo q := rfl

@[simp] theorem moveTo_position : t.moveTo t.position = t := rfl

variable (n : ℕ)

@[simp] theorem content_skip : (t.skip n).content = t.content := rfl

@[simp] theorem position_skip : (t.skip n).position = t.position + n := rfl

@[simp] theorem skip_zero : t.skip 0 = t := rfl

theorem skip_skip (m n : ℕ) : (t.skip m).skip n = t.skip (m + n) := by
  rw [skip, skip, skip, position_moveTo, moveTo_moveTo, Nat.add_assoc]

theorem rest_skip : (t.skip n).rest = t.rest.drop n := by
  rw [rest, rest, content_skip, position_skip, List.drop_drop]

theorem peek_add (m n : ℕ) : t.peek (m + n) = t.peek m ++ (t.skip m).peek n := by
  rw [peek, peek, peek, rest_skip, List.take_add]

variable {t}

end Read

section Write

variable [Zero β] (t : Tape β)

/-- The tape with some cells written at the position, which moves behind them.  To write no cell
is to do nothing, also past the end. -/
def put (data : List β) : Tape β :=
  if data = [] then t else ⟨overlay t.content t.position data, t.position + data.length⟩

@[simp] theorem put_nil : t.put [] = t := if_pos rfl

theorem put_of_ne_nil {data : List β} (h : data ≠ []) :
    t.put data = ⟨overlay t.content t.position data, t.position + data.length⟩ := if_neg h

theorem position_put (data : List β) : (t.put data).position = t.position + data.length := by
  by_cases h : data = []
  · rw [h, put_nil, List.length_nil, Nat.add_zero]
  · rw [put_of_ne_nil t h]

theorem put_put (a b : List β) : (t.put a).put b = t.put (a ++ b) := by
  by_cases ha : a = []
  · rw [ha, put_nil, List.nil_append]
  by_cases hb : b = []
  · rw [hb, put_nil, List.append_nil]
  have hab : a ++ b ≠ [] := fun h => ha (List.append_eq_nil_iff.mp h).1
  rw [put_of_ne_nil t ha, put_of_ne_nil _ hb, put_of_ne_nil t hab, overlay_append,
    List.length_append, Nat.add_assoc]

theorem rest_put (data : List β) :
    ((t.put data).moveTo t.position).rest = data ++ (t.skip data.length).rest := by
  by_cases h : data = []
  · rw [h, put_nil, moveTo_position, List.length_nil, skip_zero, List.nil_append]
  · rw [put_of_ne_nil t h, rest, content_moveTo, position_moveTo, drop_overlay, rest,
      content_skip, position_skip]

theorem content_put_of_end {t : Tape β} (h : t.position = t.content.length) (data : List β) :
    (t.put data).content = t.content ++ data := by
  by_cases hnil : data = []
  · rw [hnil, put_nil, List.append_nil]
  · rw [put_of_ne_nil t hnil, h, overlay_length]

/-- The tape cut to `n` cells, or filled up to them; a position past them moves back. -/
def resize (n : ℕ) : Tape β := ⟨zeroPadded t.content n, min t.position n⟩

end Write

end Tape

end Machine
