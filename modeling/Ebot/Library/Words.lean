import Mathlib.Data.List.Basic

/-!
# Machine integers and their bytes

The C types `int` and `size_t` on a 64-bit little-endian machine: the value an
`int` computation leaves after two's-complement wraparound, the value an `int`
takes when it is passed as a `size_t`, and the four bytes of an `int` in memory.
-/

namespace Words

/-- The `int` a computation over the integers leaves. -/
def int32 (x : Int) : Int := x.bmod 4294967296

/-- The mathematical value fits an `int`. -/
def InInt (x : Int) : Prop := -2147483648 ≤ x ∧ x ≤ 2147483647

instance (x : Int) : Decidable (InInt x) := by
  unfold InInt; infer_instance

/-- A computation that stays in range does not wrap. -/
theorem int32_of_inInt
    {x : Int} (h : InInt x) :
    int32 x = x := by
  obtain ⟨hlo, hhi⟩ := h
  exact Int.bmod_eq_of_le (by omega) (by omega)

/-- What a computation leaves is an `int`. -/
theorem int32_inInt
    (x : Int) :
    InInt (int32 x) := by
  have hlo := Int.le_bmod (x := x) (m := 4294967296) (by decide)
  have hhi := Int.bmod_lt (x := x) (m := 4294967296) (by decide)
  unfold int32
  exact ⟨by omega, by omega⟩

/-- A value just above the range comes out negative. -/
theorem int32_of_above
    {x : Int} (hlo : 2147483648 ≤ x) (hhi : x < 4294967296) :
    int32 x = x - 4294967296 := by
  unfold int32
  rw [Int.bmod_eq_iff (by decide)]
  omega

/-- A product wraps once, however its factors were computed. -/
theorem int32_mul_int32
    (x y : Int) :
    int32 (int32 x * int32 y) = int32 (x * y) := by
  unfold int32
  rw [Int.bmod_mul_bmod, Int.mul_bmod_bmod]

/-- An `int` passed where a `size_t` is expected. -/
def sizeT (n : Int) : Nat := (n % 18446744073709551616).toNat

theorem sizeT_natCast
    {n : Nat} (h : n < 18446744073709551616) :
    sizeT (n : Int) = n := by
  unfold sizeT
  omega

/-- An `int` is the same number as a `size_t`, or, if negative, a huge one. -/
theorem sizeT_of_inInt
    {x : Int} (h : InInt x) :
    0 ≤ x ∧ sizeT x = x ∨ x < 0 ∧ 9223372036854775808 ≤ sizeT x := by
  obtain ⟨hlo, hhi⟩ := h
  unfold sizeT
  omega

/-- Bytes of an `int`, lowest first. -/
def intBytes (x : Int) : List UInt8 :=
  let u := (x % 4294967296).toNat
  [UInt8.ofNat u, UInt8.ofNat (u / 256),
    UInt8.ofNat (u / 65536), UInt8.ofNat (u / 16777216)]

/-- The `int` four bytes hold. -/
def intOfBytes : List UInt8 → Int
  | [b₀, b₁, b₂, b₃] =>
      int32 ((b₀.toNat + 256 * b₁.toNat + 65536 * b₂.toNat +
        16777216 * b₃.toNat : Nat) : Int)
  | _ => 0

@[simp] theorem intBytes_length
    (x : Int) :
    (intBytes x).length = 4 := by
  rfl

/-- Four bytes in memory hold the `int` that was written there. -/
theorem intOfBytes_intBytes
    {x : Int} (h : InInt x) :
    intOfBytes (intBytes x) = x := by
  obtain ⟨hlo, hhi⟩ := h
  have hu : (x % 4294967296).toNat < 4294967296 := by omega
  have hbytes :
      ((x % 4294967296).toNat % 256 +
        256 * ((x % 4294967296).toNat / 256 % 256) +
        65536 * ((x % 4294967296).toNat / 65536 % 256) +
        16777216 * ((x % 4294967296).toNat / 16777216 % 256) : Nat) =
        (x % 4294967296).toNat := by
    omega
  simp only [intBytes, intOfBytes, UInt8.toNat_ofNat']
  rw [show (2 : Nat) ^ 8 = 256 from rfl, hbytes]
  unfold int32
  rw [Int.toNat_of_nonneg (by omega), Int.bmod_eq_iff (by decide)]
  omega

end Words
