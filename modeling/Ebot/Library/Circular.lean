import Mathlib.Data.List.Basic

/-!
# Positions on a circle

A circular buffer of `size` cells is walked from a start position: the cell
`i` steps after `p` is `(p + i) % size`.  The lemmas below turn that remainder
into the two cases a program distinguishes (before the end, past the end), so
that layout questions become linear arithmetic.
-/

namespace Circular

/-- The cell `i` steps after `p`. -/
def pos (size p i : Nat) : Nat := (p + i) % size

variable {size p i j : Nat}

theorem pos_lt
    (h : 0 < size) :
    pos size p i < size :=
  Nat.mod_lt _ h

theorem pos_of_lt
    (h : p + i < size) :
    pos size p i = p + i :=
  Nat.mod_eq_of_lt h

theorem pos_of_ge
    (hlo : size ≤ p + i)
    (hhi : p + i < 2 * size) :
    pos size p i = p + i - size := by
  unfold pos
  rw [Nat.mod_eq_sub_mod hlo]
  exact Nat.mod_eq_of_lt (by omega)

/-- A whole lap more leads to the same cell. -/
theorem mod_eq_pos
    (h : size + j = p + i) :
    j % size = pos size p i := by
  unfold pos
  rw [← h, Nat.add_mod_left]

/-- At most one lap: either the end is not reached, or it is passed once. -/
theorem pos_cases
    (hp : p < size)
    (hi : i ≤ size) :
    (p + i < size ∧ pos size p i = p + i) ∨
      (size ≤ p + i ∧ pos size p i = p + i - size) := by
  rcases Nat.lt_or_ge (p + i) size with h | h
  · exact Or.inl ⟨h, pos_of_lt h⟩
  · exact Or.inr ⟨h, pos_of_ge h (by omega)⟩

@[simp] theorem pos_zero
    (hp : p < size) :
    pos size p 0 = p :=
  Nat.mod_eq_of_lt hp

/-- A whole lap ends where it began. -/
theorem pos_size
    (hp : p < size) :
    pos size p size = p := by
  rw [pos_of_ge (by omega) (by omega), Nat.add_sub_cancel]

/-- Walking on from a position reached. -/
theorem pos_pos :
    pos size (pos size p i) j = pos size p (i + j) := by
  unfold pos
  rw [Nat.mod_add_mod, Nat.add_assoc]

/-- Within one lap two different step counts give two different cells. -/
theorem pos_injective
    (hp : p < size)
    (hi : i < size)
    (hj : j < size)
    (h : pos size p i = pos size p j) :
    i = j := by
  rcases pos_cases hp (Nat.le_of_lt hi) with ⟨_, hi'⟩ | ⟨_, hi'⟩ <;>
    rcases pos_cases hp (Nat.le_of_lt hj) with ⟨_, hj'⟩ | ⟨_, hj'⟩ <;>
    omega

end Circular
