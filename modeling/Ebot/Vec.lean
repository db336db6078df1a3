import Ebot.Library.Elements
import Ebot.Library.Transition
import Ebot.Library.Words
import Ebot.Outcome
import Mathlib.Algebra.Order.Ring.Int

/-!
# The growable vector

`vec_expand` and `vec_splice` with the macros `vec_push`, `vec_pop` and
`vec_splice`.  An element has `sz` bytes, and the block behind `data` has
exactly as many bytes as `realloc` was asked for.  `int` arithmetic wraps
(`int32`), and every access is checked against the block.

`vec_expand` doubles `capacity` before it knows that `realloc` succeeds, and
`vec_push` stores the element whether or not it did.
-/

namespace Ebot

open Bytes Words Transition

/-- `Vec(T)`; `data` is `none` for `NULL`. -/
structure Vec where
  data : Option Block
  length : Int
  capacity : Int

/-- `vec_init`. -/
def vecInit : Vec := ⟨none, 0, 0⟩

/-- The bytes behind a pointer: `NULL` has none. -/
def bytesAt (data : Option Block) : Block := data.getD (.zeroed 0)

/-- `realloc`: `mem` is `none` where memory runs out, and else the bytes of new
memory.  No object is larger than `PTRDIFF_MAX`.  After a `realloc` to 0 bytes,
whatever it returns, nothing is left behind the old pointer. -/
def realloc (mem : Option (Nat → UInt8)) (data : Option Block) (n : Nat) :
    Option Block :=
  if 2 ^ 63 ≤ n then none
  else if n = 0 then some (.zeroed 0)
  else mem.map fun new =>
    ⟨n, fun i => if i < (bytesAt data).size then (bytesAt data).byte i else new i, []⟩

/-- `memmove` within the block behind a pointer, which nothing is read through
when there is nothing to move. -/
def memmove (data : Option Block) (d s : Int) (n : Nat) : Except Stop (Option Block) :=
  if n = 0 then .ok data
  else do
    let b ← orFault data
    let b ← orFault (b.copy d b s n)
    .ok (some b)

/-- `(*capacity == 0) ? 1 : (*capacity << 1)`. -/
def grownCapacity (capacity : Int) : Int :=
  if capacity = 0 then 1 else int32 (2 * capacity)

/-- The bytes that `vec_expand` asks for; `sizeof` becomes the `int` `memsz`. -/
def grownBytes (sz : Nat) (capacity : Int) : Nat :=
  sizeT (int32 (grownCapacity capacity * int32 sz))

/-- `vec_expand`. -/
def vecExpand (sz : Nat) (mem : Option (Nat → UInt8)) (v : Vec) : Vec :=
  if v.capacity < int32 (v.length + 1) then
    match realloc mem v.data (grownBytes sz v.capacity) with
    | none => { v with capacity := grownCapacity v.capacity }
    | some b => { v with data := some b, capacity := grownCapacity v.capacity }
  else v

/-- `(v)->data[(v)->length++] = (val)`. -/
def vecAssign (sz : Nat) (v : Vec) (val : Elem sz) : Except Stop Vec := do
  let b ← orFault v.data
  let b ← orFault (b.store (v.length * sz) val.1)
  .ok { v with data := some b, length := int32 (v.length + 1) }

/-- `vec_push`. -/
def vecPush (sz : Nat) (mem : Option (Nat → UInt8)) (v : Vec) (val : Elem sz) :
    Except Stop Vec :=
  vecAssign sz (vecExpand sz mem v) val

/-- `vec_pop`: the element and the vector afterwards. -/
def vecPop (sz : Nat) (v : Vec) : Except Stop (List UInt8 × Vec) :=
  if 0 < v.length then do
    let length := int32 (v.length - 1)
    let b ← orFault v.data
    let x ← orFault (b.load (length * sz) sz)
    .ok (x, { v with length })
  else .error .abort

/-- `vec_splice`. -/
def vecSplice (sz : Nat) (v : Vec) (start count : Int) : Except Stop Vec := do
  let memsz := int32 sz
  let data ← memmove v.data (int32 (start * memsz))
    (int32 (int32 (start + count) * memsz))
    (sizeT (int32 (int32 (int32 (v.length - start) - count) * memsz)))
  .ok { v with data, length := int32 (v.length - count) }

/-- An operation; a push carries what `realloc` would answer. -/
inductive VecOp (sz : Nat) where
  | push (val : Elem sz) (mem : Option (Nat → UInt8))
  | pop
  | splice (start count : Int)

/-- What the code does, with the value of a pop. -/
def VecOp.exec {sz : Nat} (v : Vec) : VecOp sz → Except Stop (Option (List UInt8) × Vec)
  | .push val mem => do
      let v ← vecPush sz mem v val
      .ok (none, v)
  | .pop => do
      let (x, v) ← vecPop sz v
      .ok (some x, v)
  | .splice start count => do
      let v ← vecSplice sz v start count
      .ok (none, v)

/-- What the operation does to a list. -/
def VecOp.onList {sz : Nat} (xs : List (Elem sz)) : VecOp sz → List (Elem sz)
  | .push val _ => xs ++ [val]
  | .pop => xs.dropLast
  | .splice start count => xs.take start.toNat ++ xs.drop (start + count).toNat

/-- The value of the operation on a list. -/
def VecOp.value {sz : Nat} (xs : List (Elem sz)) : VecOp sz → Option (Elem sz)
  | .push _ _ => none
  | .pop => xs.getLast?
  | .splice _ _ => none

/-- The operation has to grow the vector, and `realloc` fails. -/
def VecOp.growthFails {sz : Nat} (v : Vec) : VecOp sz → Bool
  | .push _ mem => decide (v.capacity < v.length + 1) &&
      (realloc mem v.data (grownBytes sz v.capacity)).isNone
  | .pop => false
  | .splice _ _ => false

/-- A vector beside the list it stands for. -/
structure VecList (sz : Nat) where
  vec : Vec
  list : List (Elem sz)

/-- The list after an operation: a push whose growth fails leaves it. -/
def VecList.next {sz : Nat} (s : VecList sz) (op : VecOp sz) : List (Elem sz) :=
  if op.growthFails s.vec then s.list else op.onList s.list

/-- One operation on both. -/
def VecList.step {sz : Nat} (s : VecList sz) (op : VecOp sz) : Except Stop (VecList sz) := do
  let (_, vec) ← op.exec s.vec
  .ok ⟨vec, s.next op⟩

/-- An empty vector beside the empty list. -/
def VecList.init (sz : Nat) : VecList sz := ⟨vecInit, []⟩

/-- What the callers keep to: a pop is on a vector that is not empty, a splice
within its elements. -/
def VecOp.Allowed {sz : Nat} (s : VecList sz) : VecOp sz → Prop
  | .push _ _ => True
  | .pop => 0 < s.vec.length
  | .splice start count => 0 ≤ start ∧ 0 ≤ count ∧ start + count ≤ s.vec.length

instance {sz : Nat} (s : VecList sz) (op : VecOp sz) : Decidable (op.Allowed s) :=
  match op with
  | .push _ _ => inferInstanceAs (Decidable True)
  | .pop => inferInstanceAs (Decidable (_ < _))
  | .splice _ _ => inferInstanceAs (Decidable (_ ∧ _))

/-- The vector stands for the list. -/
structure Represents (sz : Nat) (v : Vec) (xs : List (Elem sz)) : Prop where
  length : v.length = xs.length
  fits : v.length ≤ v.capacity
  room : v.capacity * sz ≤ (bytesAt v.data).size
  elems : (bytesAt v.data).elems sz xs.length = xs

/-- The operation stays within the block and returns what it returns on lists, the
vector stands for the list after it, and a push whose growth fails leaves length
and capacity. -/
def VecOp.Refines {sz : Nat} (s : VecList sz) (op : VecOp sz) : Prop :=
  ∃ v, op.exec s.vec = .ok ((op.value s.list).map Subtype.val, v) ∧
    Represents sz v (s.next op) ∧
    (op.growthFails s.vec = true →
      v.length = s.vec.length ∧ v.capacity = s.vec.capacity)

/-- A push finds room, or `realloc` succeeds and the bytes of the doubled
capacity fit an `int`. -/
def VecOp.Granted {sz : Nat} (s : VecList sz) : VecOp sz → Prop
  | .push _ mem => s.vec.length < s.vec.capacity ∨
      mem.isSome = true ∧ max 1 (2 * s.vec.capacity) * sz ≤ 2147483647
  | .pop => True
  | .splice _ _ => True

instance {sz : Nat} (s : VecList sz) (op : VecOp sz) : Decidable (op.Granted s) :=
  match op with
  | .push _ _ => inferInstanceAs (Decidable (_ ∨ _))
  | .pop => inferInstanceAs (Decidable True)
  | .splice _ _ => inferInstanceAs (Decidable True)

/-- The vector stands for the list, and its block has no byte more than its
capacity needs. -/
structure Tight (sz : Nat) (v : Vec) (xs : List (Elem sz)) : Prop
    extends Represents sz v xs where
  size : ((bytesAt v.data).size : Int) = v.capacity * sz
  bound : v.capacity * sz ≤ 2147483647

section Growth

variable {sz n : Nat} {v : Vec} {xs : List (Elem sz)} {x : Elem sz}
variable {mem : Option (Nat → UInt8)} {data : Option Block} {b : Block} {c : Int}

/-- The block has the elements up to the capacity. -/
theorem Represents.room_upto
    {k : Nat}
    (h : Represents sz v xs)
    (hk : (k : Int) ≤ v.capacity) :
    k * sz ≤ (bytesAt v.data).size := by
  have hmul : (k : Int) * sz ≤ v.capacity * sz :=
    mul_le_mul_of_nonneg_right hk (by omega)
  exact_mod_cast hmul.trans h.room

/-- A vector with capacity has a block. -/
theorem Represents.data_some
    (h : Represents sz v xs)
    (hsz : 1 ≤ sz)
    (hcap : 1 ≤ v.capacity) :
    ∃ b, v.data = some b ∧ bytesAt v.data = b := by
  cases hdata : v.data with
  | some b => exact ⟨b, rfl, rfl⟩
  | none =>
      have hroom := h.room_upto (k := 1) hcap
      rw [hdata, one_mul] at hroom
      exact absurd hroom (by simp [bytesAt, Block.zeroed]; omega)

theorem Tight.capacity_bounds
    (h : Tight sz v xs)
    (hsz : 1 ≤ sz) :
    0 ≤ v.capacity ∧ v.capacity ≤ 2147483647 := by
  have hlen := h.length
  have hfits := h.fits
  have hcap : 0 ≤ v.capacity := by omega
  have hmul : v.capacity ≤ v.capacity * sz :=
    le_mul_of_one_le_right hcap (by exact_mod_cast hsz)
  have hbound := h.bound
  exact ⟨hcap, by omega⟩

/-- What a successful `realloc` gives. -/
theorem realloc_some
    (h : realloc mem data n = some b) :
    n < 2 ^ 63 ∧ b.size = n ∧ (n ≠ 0 → mem.isSome = true) := by
  unfold realloc at h
  split at h
  · cases h
  · rename_i hlt
    split at h
    · rename_i hzero
      cases h
      exact ⟨by omega, hzero.symm, fun hn => absurd hzero hn⟩
    · obtain ⟨new, hmem, rfl⟩ := Option.map_eq_some_iff.mp h
      exact ⟨by omega, rfl, fun _ => by rw [hmem]; rfl⟩

/-- Memory does not run out: the block has the size asked for and keeps the
bytes. -/
theorem realloc_of_isSome
    (data : Option Block)
    (hmem : mem.isSome = true)
    (hzero : n ≠ 0)
    (hlt : n < 2 ^ 63) :
    ∃ b, realloc mem data n = some b ∧ b.size = n ∧
      ∀ i, i < (bytesAt data).size → b.byte i = (bytesAt data).byte i := by
  obtain ⟨new, rfl⟩ := Option.isSome_iff_exists.mp hmem
  unfold realloc
  rw [if_neg (by omega), if_neg hzero]
  refine ⟨_, rfl, rfl, ?_⟩
  intro i hi
  exact if_pos hi

/-- The capacity and the bytes that a granted growth asks for. -/
theorem grown_of_granted
    (hsz : 1 ≤ sz)
    (hcap : 0 ≤ c)
    (h : max 1 (2 * c) * sz ≤ 2147483647) :
    grownCapacity c = max 1 (2 * c) ∧
      (grownBytes sz c : Int) = max 1 (2 * c) * sz := by
  have hone : (1 : Int) ≤ sz := by exact_mod_cast hsz
  have hpos : (1 : Int) ≤ max 1 (2 * c) := le_max_left _ _
  have hmax : max 1 (2 * c) ≤ max 1 (2 * c) * sz :=
    le_mul_of_one_le_right (by omega) hone
  have hszle : (sz : Int) ≤ max 1 (2 * c) * sz :=
    le_mul_of_one_le_left (by omega) hpos
  have hgrown : grownCapacity c = max 1 (2 * c) := by
    unfold grownCapacity
    split
    · omega
    · rw [int32_of_inInt ⟨by omega, by omega⟩]
      omega
  refine ⟨hgrown, ?_⟩
  unfold grownBytes
  rw [hgrown, int32_of_inInt (x := sz) ⟨by omega, by omega⟩,
    int32_of_inInt ⟨by omega, by omega⟩]
  obtain ⟨m, hm⟩ := Int.eq_ofNat_of_zero_le (a := max 1 (2 * c) * sz) (by omega)
  rw [hm, sizeT_natCast (by omega)]

/-- Where the bytes do not fit an `int`, what `realloc` is asked for is either
more than any object has or less than one more element needs. -/
theorem grownBytes_short
    (hcap : 0 ≤ c)
    (hbound : c * sz ≤ 2147483647)
    (h : 2147483647 < max 1 (2 * c) * sz)
    (hlt : grownBytes sz c < 2 ^ 63) :
    (grownBytes sz c : Int) < (c + 1) * sz := by
  unfold grownBytes at hlt ⊢
  obtain ⟨hpos, hsize⟩ | ⟨-, hhuge⟩ :=
    sizeT_of_inInt (int32_inInt (grownCapacity c * int32 sz))
  · rw [hsize]
    by_cases hzero : c = 0
    · subst hzero
      have hone : grownCapacity 0 = 1 := rfl
      have hmax : max 1 (2 * 0) = (1 : Int) := rfl
      rw [hmax, one_mul] at h
      rw [hone, one_mul, int32_of_inInt (int32_inInt sz)]
      have hhi := (int32_inInt sz).2
      omega
    · exfalso
      have hmax : max 1 (2 * c) = 2 * c := by omega
      have hdouble : 2 * c * sz = 2 * (c * sz) := mul_assoc _ _ _
      have hgrown : grownCapacity c = int32 (2 * c) := if_neg hzero
      rw [hmax, hdouble] at h
      rw [hgrown, int32_mul_int32, hdouble, int32_of_above (by omega) (by omega)] at hpos
      omega
  · omega

/-- Growth that is not needed. -/
theorem vecExpand_of_room
    (h : Tight sz v xs)
    (hsz : 1 ≤ sz)
    (hroom : v.length < v.capacity) :
    vecExpand sz mem v = v := by
  obtain ⟨hcap, hmax⟩ := h.capacity_bounds hsz
  have hlen := h.length
  unfold vecExpand
  rw [int32_of_inInt ⟨by omega, by omega⟩, if_neg (by omega)]

/-- A larger block with the same elements. -/
theorem Tight.regrown
    (h : Tight sz v xs)
    (hgrows : v.capacity ≤ c)
    (hsize : (b.size : Int) = c * sz)
    (hbound : c * sz ≤ 2147483647)
    (hkept : ∀ i, i < (bytesAt v.data).size → b.byte i = (bytesAt v.data).byte i) :
    Tight sz { v with data := some b, capacity := c } xs := by
  have hlen := h.length
  have hfits := h.fits
  have helems : b.elems sz xs.length = (bytesAt v.data).elems sz xs.length := by
    apply Block.elems_congr
    intro i hi
    have hroom := h.room_upto (k := xs.length) (by omega)
    exact hkept i (by omega)
  exact ⟨⟨hlen, hfits.trans hgrows, hsize.ge, helems.trans h.elems⟩, hsize, hbound⟩

/-- Growth that is granted. -/
theorem Tight.grow
    (h : Tight sz v xs)
    (hsz : 1 ≤ sz)
    (hfull : v.capacity ≤ v.length)
    (hmem : mem.isSome = true)
    (hbytes : max 1 (2 * v.capacity) * sz ≤ 2147483647) :
    (realloc mem v.data (grownBytes sz v.capacity)).isSome = true ∧
      Tight sz (vecExpand sz mem v) xs ∧
      (vecExpand sz mem v).length < (vecExpand sz mem v).capacity := by
  obtain ⟨hcap, hmax⟩ := h.capacity_bounds hsz
  have hfits := h.fits
  obtain ⟨hgrown, hgrownBytes⟩ := grown_of_granted hsz hcap hbytes
  have hcapmax : max 1 (2 * v.capacity) ≤ max 1 (2 * v.capacity) * sz :=
    le_mul_of_one_le_right (by omega) (by exact_mod_cast hsz)
  obtain ⟨b, hb, hbsize, hkept⟩ :=
    realloc_of_isSome v.data hmem (n := grownBytes sz v.capacity) (by omega) (by omega)
  have hexpand : vecExpand sz mem v =
      { v with data := some b, capacity := max 1 (2 * v.capacity) } := by
    unfold vecExpand
    rw [int32_of_inInt ⟨by omega, by omega⟩, if_pos (by omega), hb, hgrown]
  rw [hb, hexpand]
  rw [← hbsize] at hgrownBytes
  refine ⟨rfl, h.regrown (by omega) hgrownBytes hbytes hkept, ?_⟩
  dsimp only
  omega

/-- A granted push, before its store: the vector has room, and no growth has
failed. -/
theorem Tight.expand
    (h : Tight sz v xs)
    (hsz : 1 ≤ sz)
    (hgranted : v.length < v.capacity ∨
      mem.isSome = true ∧ max 1 (2 * v.capacity) * sz ≤ 2147483647) :
    Tight sz (vecExpand sz mem v) xs ∧
      (vecExpand sz mem v).length < (vecExpand sz mem v).capacity ∧
      (VecOp.push x mem).growthFails v = false := by
  by_cases hroom : v.length < v.capacity
  · rw [vecExpand_of_room h hsz hroom]
    have hnot : ¬ v.capacity < v.length + 1 := by omega
    exact ⟨h, hroom, by simp [VecOp.growthFails, hnot]⟩
  · obtain ⟨hmem, hbytes⟩ := hgranted.resolve_left hroom
    obtain ⟨hsome, hexpand, hroom'⟩ := h.grow hsz (by omega) hmem hbytes
    obtain ⟨b, hb⟩ := Option.isSome_iff_exists.mp hsome
    exact ⟨hexpand, hroom', by simp [VecOp.growthFails, hb]⟩

/-- The store of `vec_push` behind the last element. -/
theorem Tight.assign
    (h : Tight sz v xs)
    (hsz : 1 ≤ sz)
    (hroom : v.length < v.capacity) :
    ∃ v', vecAssign sz v x = .ok v' ∧ Tight sz v' (xs ++ [x]) := by
  obtain ⟨hcap, hmax⟩ := h.capacity_bounds hsz
  have hlen := h.length
  have hsize := h.size
  have hend := h.room_upto (k := xs.length + 1) (by push_cast; omega)
  obtain ⟨b, hb, hbytes⟩ := h.data_some hsz (by omega)
  rw [hbytes] at hsize hend
  have hstore : b.store (v.length * sz) x.1 = some (b.put (xs.length * sz) x.1) := by
    rw [hlen, ← Nat.cast_mul]
    apply Block.store_natCast
    rwa [x.2, ← Nat.succ_mul]
  refine ⟨{ v with
    data := some (b.put (xs.length * sz) x.1)
    length := int32 (v.length + 1) }, ?_, ?_⟩
  · unfold vecAssign
    rw [hb]
    dsimp only [orFault]
    rw [ok_bind, hstore]
    rfl
  · have hnext : int32 (v.length + 1) = v.length + 1 :=
      int32_of_inInt ⟨by omega, by omega⟩
    refine ⟨⟨?_, ?_, hsize.ge, ?_⟩, hsize, h.bound⟩
    · rw [List.length_append]
      dsimp only
      rw [hnext, hlen]
      rfl
    · dsimp only
      omega
    · rw [List.length_append]
      have helems := h.elems
      rw [hbytes] at helems
      exact Block.elems_put_end.trans (by rw [helems])

/-- The store of `vec_push` in a block without room for the element. -/
theorem vecAssign_fault
    (h : (bytesAt v.data).size < (v.length + 1) * sz) :
    vecAssign sz v x = .error .fault := by
  unfold vecAssign
  cases hdata : v.data with
  | none => rfl
  | some b =>
      rw [hdata] at h
      have hsize : b.size < (v.length + 1) * sz := h
      rw [add_mul, one_mul] at hsize
      dsimp only [orFault]
      rw [ok_bind]
      unfold Block.store
      rw [if_neg (by rw [x.2]; omega)]
      rfl

/-- Growth that is not granted leaves too few bytes for the element. -/
theorem Tight.expand_short
    (h : Tight sz v xs)
    (hsz : 1 ≤ sz)
    (hfull : v.capacity ≤ v.length)
    (hdenied : ¬ (mem.isSome = true ∧ max 1 (2 * v.capacity) * sz ≤ 2147483647)) :
    (bytesAt (vecExpand sz mem v).data).size < ((vecExpand sz mem v).length + 1) * sz := by
  obtain ⟨hcap, hmax⟩ := h.capacity_bounds hsz
  have hfits := h.fits
  have hlen : v.length = v.capacity := by omega
  have hold : ((bytesAt v.data).size : Int) < (v.length + 1) * sz := by
    rw [h.size, hlen, add_mul, one_mul]
    omega
  unfold vecExpand
  split
  · cases hb : realloc mem v.data (grownBytes sz v.capacity) with
    | none => exact hold
    | some b =>
        obtain ⟨hlt, hsize, hmem⟩ := realloc_some hb
        have hshort : (grownBytes sz v.capacity : Int) < (v.length + 1) * sz := by
          by_cases hzero : grownBytes sz v.capacity = 0
          · rw [hzero]
            exact mul_pos (by omega) (by omega)
          · rw [hlen]
            refine grownBytes_short hcap h.bound ?_ hlt
            by_contra hle
            exact hdenied ⟨hmem hzero, by omega⟩
        rw [← hsize] at hshort
        exact hshort
  · exact hold

end Growth

section Operations

variable {sz : Nat} {v : Vec} {xs : List (Elem sz)}

/-- `vec_pop` on a vector that is not empty. -/
theorem Tight.pop
    (h : Tight sz v xs)
    (hsz : 1 ≤ sz)
    (hpos : 0 < v.length) :
    ∃ x v', vecPop sz v = .ok (x, v') ∧ some x = xs.getLast?.map Subtype.val ∧
      Tight sz v' xs.dropLast := by
  obtain ⟨hcap, hmax⟩ := h.capacity_bounds hsz
  have hlen := h.length
  have hfits := h.fits
  obtain ⟨n, hn⟩ := Nat.exists_eq_add_of_lt (show 0 < xs.length by omega)
  rw [Nat.zero_add] at hn
  have hend := h.room_upto (k := n + 1) (by push_cast; omega)
  obtain ⟨b, hb, hbytes⟩ := h.data_some hsz (by omega)
  have helems := h.elems
  rw [hbytes] at hend helems
  rw [hn, Block.elems_succ] at helems
  have hlast : int32 (v.length - 1) = n := by
    rw [int32_of_inInt ⟨by omega, by omega⟩]
    omega
  refine ⟨(b.elem sz n).1, { v with length := n }, ?_, ?_, ?_⟩
  · unfold vecPop
    have hload : b.load (n * sz) sz = some (b.elem sz n).1 := by
      rw [← Nat.cast_mul]
      exact Block.load_natCast (by rwa [← Nat.succ_mul])
    rw [if_pos hpos, hlast, hb]
    dsimp only [orFault]
    rw [ok_bind, hload]
    rfl
  · rw [← helems, List.getLast?_concat]
    rfl
  · rw [← helems, List.dropLast_concat]
    refine ⟨⟨?_, ?_, h.room, ?_⟩, h.size, h.bound⟩
    · rw [Block.elems_length]
    · dsimp only
      omega
    · rw [Block.elems_length, hbytes]

/-- `memmove` between ranges of the block. -/
theorem memmove_natCast
    {data : Option Block} {d s n : Nat}
    (hd : d + n ≤ (bytesAt data).size)
    (hs : s + n ≤ (bytesAt data).size) :
    ∃ data', memmove data d s n = .ok data' ∧ (bytesAt data').size = (bytesAt data).size ∧
      (bytesAt data').byte = ((bytesAt data).put d ((bytesAt data).window s n)).byte := by
  unfold memmove
  by_cases hzero : n = 0
  · subst hzero
    refine ⟨data, if_pos rfl, rfl, ?_⟩
    funext i
    rw [Block.put_byte_outside (by rw [Block.window_length]; omega)]
  · rw [if_neg hzero]
    cases data with
    | none =>
        have hnone : (bytesAt none).size = 0 := rfl
        omega
    | some b =>
        have hcopy : b.copy d b s n = some (b.put d (b.window s n)) :=
          Block.copy_natCast hs hd
        dsimp only [orFault]
        rw [ok_bind, hcopy]
        exact ⟨_, rfl, rfl, rfl⟩

/-- The byte offset of an element up to the capacity. -/
theorem Tight.offset
    {k : Nat}
    (h : Tight sz v xs)
    (hsz : 1 ≤ sz)
    (hk : (k : Int) ≤ v.capacity) :
    int32 (k * int32 sz) = ((k * sz : Nat) : Int) := by
  obtain ⟨hcap, hmax⟩ := h.capacity_bounds hsz
  have hroom := h.room_upto hk
  have hsize := h.size
  have hbound := h.bound
  have hint : int32 k = k := int32_of_inInt ⟨by omega, by omega⟩
  calc
    int32 (k * int32 sz) = int32 (int32 k * int32 sz) := by rw [hint]
    _ = int32 (k * sz) := int32_mul_int32 _ _
    _ = ((k * sz : Nat) : Int) := by
      rw [← Nat.cast_mul]
      exact int32_of_inInt ⟨by omega, by omega⟩

/-- `vec_splice` within the elements. -/
theorem Tight.splice
    {s c : Nat}
    (h : Tight sz v xs)
    (hsz : 1 ≤ sz)
    (hsc : s + c ≤ xs.length) :
    ∃ v', vecSplice sz v s c = .ok v' ∧ Tight sz v' (xs.take s ++ xs.drop (s + c)) := by
  obtain ⟨hcap, hmax⟩ := h.capacity_bounds hsz
  have hlen := h.length
  have hfits := h.fits
  have hroom := h.room_upto (k := xs.length) (by omega)
  have hsum : int32 ((s : Int) + c) = ((s + c : Nat) : Int) :=
    int32_of_inInt ⟨by omega, by omega⟩
  have hrest : int32 (int32 (v.length - s) - c) = ((xs.length - s - c : Nat) : Int) := by
    rw [int32_of_inInt (x := v.length - s) ⟨by omega, by omega⟩,
      int32_of_inInt ⟨by omega, by omega⟩]
    omega
  have hnext : int32 (v.length - c) = ((xs.length - c : Nat) : Int) := by
    rw [int32_of_inInt ⟨by omega, by omega⟩]
    omega
  have hto : s * sz + (xs.length - s - c) * sz ≤ (bytesAt v.data).size := by
    rw [← Nat.add_mul]
    exact (Nat.mul_le_mul_right sz (by omega)).trans hroom
  have hfrom : (s + c) * sz + (xs.length - s - c) * sz ≤ (bytesAt v.data).size := by
    rw [← Nat.add_mul]
    exact (Nat.mul_le_mul_right sz (by omega)).trans hroom
  have hsmall : (xs.length - s - c) * sz < 18446744073709551616 := by
    have hsize := h.size
    have hbound := h.bound
    omega
  obtain ⟨data, hmove, hsize, hbyte⟩ := memmove_natCast hto hfrom
  refine ⟨{ v with data, length := (xs.length - c : Nat) }, ?_, ?_⟩
  · unfold vecSplice
    dsimp only
    rw [hsum, hrest, hnext, h.offset hsz (k := s) (by omega),
      h.offset hsz (k := s + c) (by omega),
      h.offset hsz (k := xs.length - s - c) (by omega), sizeT_natCast hsmall, hmove]
    rfl
  · have hcount : (xs.take s ++ xs.drop (s + c)).length = xs.length - c := by
      simp
      omega
    have helems : (bytesAt data).elems sz (xs.length - c) =
        xs.take s ++ xs.drop (s + c) := by
      rw [Block.elems_congr (fun i _ => congrFun hbyte i), Block.elems_move hsc, h.elems]
    have hroom' := h.room
    have hsize' := h.size
    rw [← hsize] at hroom' hsize'
    refine ⟨⟨?_, ?_, hroom', ?_⟩, hsize', h.bound⟩
    · rw [hcount]
    · dsimp only
      omega
    · rw [hcount]
      exact helems

/-- An operation that is granted does what it does on lists. -/
theorem VecOp.exec_spec
    {s : VecList sz} {op : VecOp sz}
    (h : Tight sz s.vec s.list)
    (hsz : 1 ≤ sz)
    (hallowed : op.Allowed s)
    (hgranted : op.Granted s) :
    ∃ v, op.exec s.vec = .ok ((op.value s.list).map Subtype.val, v) ∧
      Tight sz v (s.next op) ∧ op.growthFails s.vec = false := by
  cases op with
  | push val mem =>
      obtain ⟨hexpand, hroom, hfails⟩ := h.expand (x := val) hsz hgranted
      obtain ⟨v, hassign, htight⟩ := hexpand.assign (x := val) hsz hroom
      refine ⟨v, ?_, ?_, hfails⟩
      · have hpush : vecPush sz mem s.vec val = .ok v := hassign
        unfold VecOp.exec
        dsimp only
        rw [hpush]
        rfl
      · unfold VecList.next
        rw [hfails]
        exact htight
  | pop =>
      obtain ⟨x, v, hpop, hx, htight⟩ := h.pop hsz hallowed
      refine ⟨v, ?_, htight, rfl⟩
      unfold VecOp.exec VecOp.value
      dsimp only
      rw [hpop, ← hx]
      rfl
  | splice start count =>
      obtain ⟨hstart, hcount, hend⟩ := hallowed
      obtain ⟨i, rfl⟩ := Int.eq_ofNat_of_zero_le hstart
      obtain ⟨c, rfl⟩ := Int.eq_ofNat_of_zero_le hcount
      have hlen := h.length
      obtain ⟨v, hsplice, htight⟩ := h.splice hsz (s := i) (c := c) (by omega)
      refine ⟨v, ?_, htight, rfl⟩
      unfold VecOp.exec
      dsimp only
      rw [hsplice]
      rfl

/-- A push that is not granted stores outside the block. -/
theorem VecOp.exec_fault
    {s : VecList sz} {op : VecOp sz}
    (h : Tight sz s.vec s.list)
    (hsz : 1 ≤ sz)
    (hdenied : ¬ op.Granted s) :
    op.exec s.vec = .error .fault := by
  cases op with
  | push val mem =>
      obtain ⟨hfull, hdenied⟩ := not_or.mp hdenied
      have hpush : vecPush sz mem s.vec val = .error .fault :=
        vecAssign_fault (h.expand_short hsz (by omega) hdenied)
      unfold VecOp.exec
      dsimp only
      rw [hpush]
      rfl
  | pop => exact absurd trivial hdenied
  | splice start count => exact absurd trivial hdenied

/-- In the states of a run, granted operations are those that refine lists. -/
theorem VecOp.refines_iff_granted
    {s : VecList sz} {op : VecOp sz}
    (h : Tight sz s.vec s.list)
    (hsz : 1 ≤ sz)
    (hallowed : op.Allowed s) :
    op.Refines s ↔ op.Granted s := by
  constructor
  · rintro ⟨v, hexec, -⟩
    by_contra hdenied
    rw [VecOp.exec_fault h hsz hdenied] at hexec
    cases hexec
  · intro hgranted
    obtain ⟨v, hexec, htight, hfails⟩ := VecOp.exec_spec h hsz hallowed hgranted
    refine ⟨v, hexec, htight.toRepresents, ?_⟩
    rw [hfails]
    intro hfalse
    cases hfalse

theorem tight_init
    (sz : Nat) :
    Tight sz (VecList.init sz).vec (VecList.init sz).list :=
  ⟨⟨rfl, le_rfl, by simp [VecList.init, vecInit], rfl⟩,
    by simp [VecList.init, vecInit, bytesAt, Block.zeroed], by simp [VecList.init, vecInit]⟩

/-- One step of a run. -/
theorem Tight.step
    {s s' : VecList sz} {op : VecOp sz}
    (h : Tight sz s.vec s.list)
    (hsz : 1 ≤ sz)
    (hallowed : op.Allowed s)
    (hstep : s.step op = .ok s') :
    Tight sz s'.vec s'.list := by
  unfold VecList.step at hstep
  by_cases hgranted : op.Granted s
  · obtain ⟨v, hexec, htight, -⟩ := VecOp.exec_spec h hsz hallowed hgranted
    rw [hexec, ok_bind] at hstep
    cases hstep
    exact htight
  · rw [VecOp.exec_fault h hsz hgranted, error_bind] at hstep
    cases hstep

end Operations

/-- Along every sequence of operations on a new vector, each of them refines its
operation on lists exactly if every push that finds the vector full is granted. -/
theorem vec_refines_list_iff
    (sz : Nat) (ops : List (VecOp sz))
    (hsz : 1 ≤ sz)
    (hallowed : Along VecList.step VecOp.Allowed (VecList.init sz) ops) :
    Along VecList.step VecOp.Refines (VecList.init sz) ops ↔
      Along VecList.step VecOp.Granted (VecList.init sz) ops :=
  Along.iff_of_invariant (I := fun s => Tight sz s.vec s.list)
    (fun _ _ _ h hallowed hstep => h.step hsz hallowed hstep)
    (fun _ _ h hallowed => VecOp.refines_iff_granted h hsz hallowed)
    (tight_init sz) hallowed

section Witness

/-- An `int` of small value. -/
def fourBytes (n : UInt8) : Elem 4 := ⟨[n, 0, 0, 0], rfl⟩

/-- Memory does not run out. -/
def freshMem : Option (Nat → UInt8) := some fun _ => 0

/-- Two elements are pushed, and leave by a splice and by a pop. -/
def inAndOut : List (VecOp 4) :=
  [.push (fourBytes 1) freshMem, .push (fourBytes 2) freshMem, .splice 0 1, .pop]

theorem inAndOut_allowed :
    Along VecList.step VecOp.Allowed (VecList.init 4) inAndOut :=
  .cons rfl trivial <| .cons rfl trivial <|
    .cons rfl (by decide) <| .cons rfl (by decide) trivial

/-- Two growths, a move of one element and a pop. -/
theorem vec_refines_list_iff_inAndOut :
    Along VecList.step VecOp.Refines (VecList.init 4) inAndOut ↔
      Along VecList.step VecOp.Granted (VecList.init 4) inAndOut :=
  vec_refines_list_iff 4 inAndOut (by decide) inAndOut_allowed

/-- The first push, where memory runs out. -/
theorem not_vec_refines_list :
    ¬ ∀ (sz : Nat) (ops : List (VecOp sz)), 1 ≤ sz →
      Along VecList.step VecOp.Allowed (VecList.init sz) ops →
      Along VecList.step VecOp.Refines (VecList.init sz) ops := by
  intro hclaim
  have hdenied : ¬ (VecOp.push (fourBytes 1) none).Granted (VecList.init 4) := by
    rintro (hroom | ⟨hmem, -⟩)
    · exact absurd hroom (by decide)
    · cases hmem
  have hallowed : (VecOp.push (fourBytes 1) none).Allowed (VecList.init 4) := trivial
  obtain ⟨hrefines, -⟩ := hclaim 4 [.push (fourBytes 1) none] (by decide)
    ⟨hallowed, fun _ _ => trivial⟩
  exact hdenied
    ((VecOp.refines_iff_granted (tight_init 4) (by decide) hallowed).mp hrefines)

end Witness

end Ebot
