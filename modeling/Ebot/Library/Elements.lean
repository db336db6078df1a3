import Ebot.Library.Bytes

/-!
# Arrays of equal elements in a block

A block read as an array of elements of `sz` bytes each: element `i` is the
bytes from `i * sz` on.  What a write at the end, a change behind the end and a
move within the block do to the list of the first elements.
-/

namespace Bytes

/-- The bytes of one element. -/
abbrev Elem (sz : Nat) := { bs : List UInt8 // bs.length = sz }

namespace Block

/-- Element `i`. -/
def elem (b : Block) (sz i : Nat) : Elem sz := ⟨b.window (i * sz) sz, window_length⟩

/-- The first `n` elements. -/
def elems (b : Block) (sz n : Nat) : List (Elem sz) := (List.range n).map (b.elem sz)

section Elements

variable {b b' : Block} {sz a c i m n s : Nat} {x : Elem sz}

@[simp] theorem elems_length :
    (b.elems sz n).length = n := by
  simp [elems]

@[simp] theorem elems_getElem
    (h : i < (b.elems sz n).length) :
    (b.elems sz n)[i] = b.elem sz i := by
  simp [elems]

theorem elems_succ :
    b.elems sz (n + 1) = b.elems sz n ++ [b.elem sz n] := by
  unfold elems
  rw [List.range_succ, List.map_append]
  rfl

/-- An element ends before the next one begins. -/
theorem elem_end_le
    (sz : Nat)
    (h : i < n) :
    i * sz + sz ≤ n * sz := by
  have hmul : (i + 1) * sz ≤ n * sz := Nat.mul_le_mul_right sz h
  rwa [Nat.succ_mul] at hmul

/-- The elements depend on their own bytes only. -/
theorem elems_congr
    (h : ∀ i, i < n * sz → b.byte i = b'.byte i) :
    b.elems sz n = b'.elems sz n := by
  apply List.ext_getElem
  · simp
  · intro i hi _
    rw [elems_length] at hi
    rw [elems_getElem, elems_getElem]
    apply Subtype.ext
    apply window_congr
    intro k hk
    have hend := elem_end_le sz hi
    exact h _ (by omega)

/-- An element written behind the first `n`. -/
theorem elems_put_end :
    (b.put (n * sz) x.1).elems sz (n + 1) = b.elems sz n ++ [x] := by
  have hbefore : (b.put (n * sz) x.1).elems sz n = b.elems sz n := by
    apply elems_congr
    intro i hi
    exact put_byte_outside (.inl hi)
  have hlast : (b.put (n * sz) x.1).elem sz n = x :=
    Subtype.ext (window_put_self x.2)
  rw [elems_succ, hbefore, hlast]

/-- A window of what was put from a window. -/
theorem window_put_window
    {k : Nat}
    (h : k + n ≤ m) :
    (b.put a (b'.window s m)).window (a + k) n = b'.window (s + k) n := by
  apply window_congr
  intro i hi
  have hin : k + i < (b'.window s m).length := by
    rw [window_length]
    omega
  rw [Nat.add_assoc, put_byte_inside hin, List.getD_eq_getElem _ _ hin,
    window_getElem, Nat.add_assoc]

/-- The elements behind a gap of `c` moved down to close it. -/
theorem elems_move
    (h : s + c ≤ n) :
    (b.put (s * sz) (b.window ((s + c) * sz) ((n - s - c) * sz))).elems sz (n - c) =
      (b.elems sz n).take s ++ (b.elems sz n).drop (s + c) := by
  apply List.ext_getElem
  · simp
    omega
  · intro i hi hi'
    rw [elems_length] at hi
    rw [elems_getElem, List.getElem_append]
    split
    · rename_i hlt
      rw [List.getElem_take, elems_getElem]
      apply Subtype.ext
      have his : i < s := by
        rw [List.length_take] at hlt
        omega
      have hend := elem_end_le sz his
      exact window_put_outside (.inl hend)
    · rename_i hge
      rw [List.length_take, elems_length, Nat.min_eq_left (by omega)] at hge
      obtain ⟨j, rfl⟩ := Nat.exists_eq_add_of_le (Nat.le_of_not_lt hge)
      have hj : j < n - s - c := by omega
      have hend := elem_end_le sz hj
      simp only [List.getElem_drop, elems_getElem, List.length_take, elems_length]
      apply Subtype.ext
      unfold elem
      dsimp only
      rw [Nat.add_mul s j, window_put_window hend]
      congr 1
      rw [Nat.min_eq_left (by omega), Nat.add_sub_cancel_left, Nat.add_mul (s + c) j]

end Elements

end Block

end Bytes
