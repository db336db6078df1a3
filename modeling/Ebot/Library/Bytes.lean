import Mathlib.Data.List.GetD

/-!
# Byte blocks

An allocated block of memory: its size, its bytes and the history of the ranges
written to it.  Reads and writes are checked against the size; an access that
leaves the block has no value (`none`).  The history is what statements about
*where* a function writes are about.
-/

namespace Bytes

/-- An allocated block. -/
structure Block where
  size : Nat
  byte : Nat → UInt8
  written : List (Nat × Nat)

namespace Block

/-- A block of `n` zero bytes. -/
def zeroed (n : Nat) : Block := ⟨n, fun _ => 0, []⟩

/-- A block that holds exactly the bytes of a list. -/
def ofList (bs : List UInt8) : Block := ⟨bs.length, fun i => bs.getD i 0, []⟩

/-- The `n` bytes from address `a` on. -/
def window (b : Block) (a n : Nat) : List UInt8 :=
  (List.range n).map fun i => b.byte (a + i)

/-- The block after the bytes `bs` were put at address `a`. -/
def put (b : Block) (a : Nat) (bs : List UInt8) : Block :=
  { b with
    byte := fun i =>
      if a ≤ i ∧ i < a + bs.length then bs.getD (i - a) 0 else b.byte i
    written := b.written ++ [(a, bs.length)] }

/-- Checked read of `n` bytes. -/
def load (b : Block) (a : Int) (n : Nat) : Option (List UInt8) :=
  if 0 ≤ a ∧ a + n ≤ b.size then some (b.window a.toNat n) else none

/-- Checked write. -/
def store (b : Block) (a : Int) (bs : List UInt8) : Option Block :=
  if 0 ≤ a ∧ a + bs.length ≤ b.size then some (b.put a.toNat bs) else none

/-- Checked copy of `n` bytes from one block to another. -/
def copy (dst : Block) (d : Int) (src : Block) (s : Int) (n : Nat) :
    Option Block :=
  (src.load s n).bind (dst.store d)

section Lemmas

variable {b src : Block} {a i n : Nat} {bs : List UInt8}

@[simp] theorem window_length :
    (b.window a n).length = n := by
  simp [window]

@[simp] theorem window_getElem
    (h : i < (b.window a n).length) :
    (b.window a n)[i] = b.byte (a + i) := by
  simp [window]

@[simp] theorem put_size :
    (b.put a bs).size = b.size := by
  rfl

theorem put_byte_inside
    (h : i < bs.length) :
    (b.put a bs).byte (a + i) = bs.getD i 0 := by
  have hin : a ≤ a + i ∧ a + i < a + bs.length := by omega
  simp [put, hin]

theorem put_byte_outside
    (h : i < a ∨ a + bs.length ≤ i) :
    (b.put a bs).byte i = b.byte i := by
  have hout : ¬ (a ≤ i ∧ i < a + bs.length) := by omega
  simp [put, hout]

theorem load_natCast
    (h : a + n ≤ b.size) :
    b.load (a : Int) n = some (b.window a n) := by
  have hin : (0 : Int) ≤ a ∧ (a : Int) + n ≤ b.size := by omega
  simp [load, hin]

theorem store_natCast
    (h : a + bs.length ≤ b.size) :
    b.store (a : Int) bs = some (b.put a bs) := by
  have hin : (0 : Int) ≤ a ∧ (a : Int) + bs.length ≤ b.size := by omega
  simp [store, hin]

/-- A copy between ranges that lie in their blocks. -/
theorem copy_natCast
    {s : Nat}
    (hsrc : s + n ≤ src.size)
    (hdst : a + n ≤ b.size) :
    b.copy (a : Int) src (s : Int) n = some (b.put a (src.window s n)) := by
  rw [copy, load_natCast hsrc, Option.bind_some]
  exact store_natCast (by simpa using hdst)

/-- A window read back is the list that was put there. -/
theorem window_put_self
    (h : bs.length = n) :
    (b.put a bs).window a n = bs := by
  subst h
  apply List.ext_getElem
  · simp
  · intro i hi hi'
    rw [window_getElem, put_byte_inside hi', List.getD_eq_getElem _ _ hi']

/-- A later put that lies outside a window does not change it. -/
theorem window_put_outside
    {a' : Nat}
    (h : a' + n ≤ a ∨ a + bs.length ≤ a') :
    (b.put a bs).window a' n = b.window a' n := by
  apply List.ext_getElem
  · simp
  · intro i hi _
    rw [window_length] at hi
    rw [window_getElem, window_getElem, put_byte_outside (by omega)]

/-- Windows are equal when their bytes are. -/
theorem window_congr
    {b' : Block} {a' : Nat}
    (h : ∀ i, i < n → b.byte (a + i) = b'.byte (a' + i)) :
    b.window a n = b'.window a' n := by
  apply List.ext_getElem
  · simp
  · intro i hi _
    rw [window_getElem, window_getElem]
    exact h i (by simpa using hi)

/-- A list put in two consecutive parts is put as a whole. -/
theorem window_put_put
    {cs : List UInt8} {m : Nat}
    (hbs : bs.length = m)
    (hn : n = m + cs.length) :
    ((b.put a bs).put (a + m) cs).window a n = bs ++ cs := by
  subst hbs hn
  apply List.ext_getElem
  · simp
  · intro i hi hi'
    rw [window_getElem, List.getElem_append]
    split
    · rename_i hlt
      rw [put_byte_outside (by omega), put_byte_inside hlt,
        List.getD_eq_getElem _ _ hlt]
    · rename_i hge
      rw [List.length_append] at hi'
      rw [show a + i = a + bs.length + (i - bs.length) by omega,
        put_byte_inside (by omega), List.getD_eq_getElem _ _ (by omega)]

@[simp] theorem ofList_size :
    (ofList bs).size = bs.length := by
  rfl

@[simp] theorem window_ofList :
    (ofList bs).window 0 bs.length = bs := by
  apply List.ext_getElem
  · simp
  · intro i hi hi'
    rw [window_getElem]
    simp [ofList, hi']

end Lemmas

end Block

end Bytes
