import Mathlib.Algebra.GroupWithZero.Nat
import Ebot.Library.Bytes
import Ebot.Library.Circular

/-!
# Records on a circular buffer with slack

Variable-length records stored one after the other on a circular buffer of
`size` cells.  A record starts with a header of `k` bytes that is stored
contiguously, even where it runs past the last cell (the block has `k` slack
bytes behind the circle); the bytes that follow it are stored circularly, and
the cells a header skips on the circle stay unused.

`RecordAt` says that a record is stored at a position, `Laid` that a list of
records is stored from a position on.  The main facts: two records at different
steps of one lap touch different bytes (`cell_disjoint`), so storing one keeps
the others (`Laid.append`).
-/

namespace RecordRing

open Bytes Circular

section Layout

variable (k : Nat) (header : Nat → List UInt8) (size : Nat)

/-- Length a record takes on the circle. -/
def span (r : List UInt8) : Nat := k + r.length

/-- Length a list of records takes on the circle. -/
def spans (rs : List (List UInt8)) : Nat := (rs.map (span k)).sum

/-- The bytes of the block that a record of length `n` at `p` occupies. -/
def Cell (p n a : Nat) : Prop :=
  (p ≤ a ∧ a < p + k) ∨ ∃ i, i < n ∧ a = pos size p (k + i)

/-- The record `r` is stored at position `p`. -/
def RecordAt (b : Block) (p : Nat) (r : List UInt8) : Prop :=
  b.window p k = header r.length ∧
    ∀ i, i < r.length → b.byte (pos size p (k + i)) = r.getD i 0

/-- How a record `r` can be stored at position `p`: in one piece, with its bytes
split at the end of the circle, or with a header that reaches the slack. -/
inductive Stores (b : Block) (p : Nat) (r : List UInt8) : Block → Prop
  | straight :
      p + k + r.length ≤ size →
      Stores b p r ((b.put p (header r.length)).put (p + k) r)
  | split {m : Nat} :
      p + k + m = size →
      m ≤ r.length →
      Stores b p r
        (((b.put p (header r.length)).put (p + k) (r.take m)).put 0 (r.drop m))
  | straddle :
      size ≤ p + k →
      Stores b p r ((b.put p (header r.length)).put (p + k - size) r)

/-- The records `rs` are stored one after the other from position `p` on. -/
def Laid (b : Block) : Nat → List (List UInt8) → Prop
  | _, [] => True
  | p, r :: rs =>
      RecordAt k header size b p r ∧ Laid b (pos size p (span k r)) rs

/-- The bytes that the records `rs` occupy when they are stored from `p` on. -/
def Occupied (p : Nat) (rs : List (List UInt8)) (a : Nat) : Prop :=
  ∃ before r after, rs = before ++ r :: after ∧
    Cell k size (pos size p (spans k before)) r.length a

end Layout

variable {k : Nat} {header : Nat → List UInt8} {size : Nat}
variable {b b' : Block} {h p n a : Nat} {r : List UInt8}
  {rs : List (List UInt8)}

@[simp] theorem spans_nil : spans k [] = 0 := by
  rfl

@[simp] theorem spans_cons : spans k (r :: rs) = span k r + spans k rs := by
  simp [spans]

@[simp] theorem spans_append_singleton :
    spans k (rs ++ [r]) = spans k rs + span k r := by
  simp [spans]

/-- Every record takes at least its header. -/
theorem length_mul_le_spans :
    rs.length * k ≤ spans k rs := by
  induction rs with
  | nil => simp
  | cons r rs ih =>
      simp only [List.length_cons, spans_cons, span, Nat.add_mul]
      omega

/-- Records at different steps of one lap occupy different bytes. -/
theorem cell_disjoint
    {u v l n : Nat}
    (hh : h < size)
    (huv : u + k + l ≤ v)
    (hv : v + k + n < size)
    (hu : Cell k size (pos size h u) l a) :
    ¬ Cell k size (pos size h v) n a := by
  have hpu := pos_cases (i := u) hh (by omega)
  have hpv := pos_cases (i := v) hh (by omega)
  rintro (⟨hv₁, hv₂⟩ | ⟨j, hj, rfl⟩)
  · rcases hu with ⟨hu₁, hu₂⟩ | ⟨i, hi, rfl⟩
    · omega
    · -- a payload byte of the first against the header of the second
      rw [pos_pos] at hv₁ hv₂
      have hpi := pos_cases (i := u + (k + i)) hh (by omega)
      omega
  · rw [pos_pos] at hu
    have hpj := pos_cases (i := v + (k + j)) hh (by omega)
    rcases hu with ⟨hu₁, hu₂⟩ | ⟨i, hi, he⟩
    · omega
    · rw [pos_pos] at he
      have := pos_injective hh (by omega) (by omega) he
      omega

/-- A record stays inside the circle and its slack. -/
theorem Cell.lt
    (hp : p < size)
    (h : Cell k size p n a) :
    a < size + k := by
  rcases h with ⟨_, h⟩ | ⟨i, _, rfl⟩
  · omega
  · have hlt : pos size p (k + i) < size := pos_lt (by omega)
    omega

/-- A record stored behind others touches none of their bytes. -/
theorem Cell.not_occupied
    (hh : h < size)
    (hroom : spans k rs + k + n < size)
    (hcell : Cell k size (pos size h (spans k rs)) n a) :
    ¬ Occupied k size h rs a := by
  rintro ⟨before, r, after, rfl, hocc⟩
  have hspans : spans k (before ++ r :: after) =
      spans k before + (k + r.length) + spans k after := by
    simp only [spans, List.map_append, List.map_cons, List.sum_append, List.sum_cons, span]
    omega
  refine cell_disjoint hh ?_ hroom hocc hcell
  omega

/-- A record only depends on the bytes it occupies. -/
theorem RecordAt.frame
    (hr : RecordAt k header size b p r)
    (hframe : ∀ a, Cell k size p r.length a → b'.byte a = b.byte a) :
    RecordAt k header size b' p r := by
  obtain ⟨hhead, hbytes⟩ := hr
  constructor
  · rw [← hhead]
    apply Block.window_congr
    intro i hi
    exact hframe _ (Or.inl ⟨by omega, by omega⟩)
  · intro i hi
    rw [hframe _ (Or.inr ⟨i, hi, rfl⟩)]
    exact hbytes i hi

/-- Records laid in `[u, v)` survive a change of the bytes of a record at `v`. -/
theorem Laid.frame
    {u v n : Nat}
    (hh : h < size)
    (hlaid : Laid k header size b (pos size h u) rs)
    (huv : u + spans k rs ≤ v)
    (hv : v + k + n < size)
    (hframe : ∀ a, ¬ Cell k size (pos size h v) n a → b'.byte a = b.byte a) :
    Laid k header size b' (pos size h u) rs := by
  induction rs generalizing u with
  | nil => trivial
  | cons r rs ih =>
      obtain ⟨hr, hrest⟩ := hlaid
      simp only [spans_cons, span] at huv
      constructor
      · apply hr.frame
        intro a ha
        exact hframe a (cell_disjoint hh (by omega) hv ha)
      · rw [pos_pos] at hrest ⊢
        exact ih hrest (by simp only [span]; omega)

/-- Each of the records laid is stored where those before it end. -/
theorem Laid.recordAt
    {before after : List (List UInt8)}
    {u : Nat}
    (h : Laid k header size b (pos size p u) (before ++ r :: after)) :
    RecordAt k header size b (pos size p (u + spans k before)) r := by
  induction before generalizing u with
  | nil => exact h.1
  | cons q before ih =>
      obtain ⟨-, hrest⟩ := h
      rw [pos_pos] at hrest
      rw [spans_cons, ← Nat.add_assoc]
      exact ih hrest

/-- Laying one more record at the end. -/
theorem laid_append_singleton
    {u : Nat} :
    Laid k header size b (pos size h u) (rs ++ [r]) ↔
      Laid k header size b (pos size h u) rs ∧
        RecordAt k header size b (pos size h (u + spans k rs)) r := by
  induction rs generalizing u with
  | nil => simp [Laid]
  | cons q rs ih =>
      simp only [List.cons_append, Laid, pos_pos, spans_cons]
      rw [ih, Nat.add_assoc]
      exact ⟨fun ⟨h₁, h₂, h₃⟩ => ⟨⟨h₁, h₂⟩, h₃⟩, fun ⟨⟨h₁, h₂⟩, h₃⟩ => ⟨h₁, h₂, h₃⟩⟩

/-- Storing a record behind the others keeps them and adds it. -/
theorem Laid.append
    (hh : h < size)
    (hlaid : Laid k header size b h rs)
    (hroom : spans k rs + span k r < size)
    (hrec : RecordAt k header size b' (pos size h (spans k rs)) r)
    (hframe : ∀ a,
      ¬ Cell k size (pos size h (spans k rs)) r.length a →
      b'.byte a = b.byte a) :
    Laid k header size b' h (rs ++ [r]) := by
  have hzero : pos size h 0 = h := pos_zero hh
  rw [← hzero, laid_append_singleton, Nat.zero_add]
  refine ⟨?_, hrec⟩
  rw [← hzero] at hlaid
  unfold span at hroom
  exact hlaid.frame hh (by omega) (by omega) hframe

section Load

variable {t m : Nat}

/-- Reading a record whose bytes end before the end of the circle. -/
theorem RecordAt.window_straight
    (hr : RecordAt k header size b t r)
    (hfit : t + k + r.length ≤ size) :
    b.window (t + k) r.length = r := by
  apply List.ext_getElem
  · simp
  · intro i hi hi'
    have hbyte := hr.2 i hi'
    rw [pos_of_lt (by omega), ← Nat.add_assoc] at hbyte
    rw [Block.window_getElem, hbyte, List.getD_eq_getElem _ _ hi']

/-- Reading the two parts of a record split at the end of the circle. -/
theorem RecordAt.window_split
    (hr : RecordAt k header size b t r)
    (ht : t < size)
    (hm : t + k + m = size)
    (hmr : m ≤ r.length)
    (hfit : k + r.length < size) :
    b.window (t + k) m ++ b.window 0 (r.length - m) = r := by
  apply List.ext_getElem
  · simp; omega
  · intro i hi hi'
    have hbyte := hr.2 i hi'
    rw [List.getElem_append]
    rcases pos_cases (i := k + i) ht (by omega) with ⟨hlt, hpos⟩ | ⟨hge, hpos⟩
    · rw [dif_pos (by simp; omega), Block.window_getElem, Nat.add_assoc, ← hpos,
        hbyte, List.getD_eq_getElem _ _ hi']
    · rw [dif_neg (by simp; omega), Block.window_getElem, Block.window_length,
        show 0 + (i - m) = t + (k + i) - size by omega, ← hpos, hbyte,
        List.getD_eq_getElem _ _ hi']

/-- Reading a record whose header reaches the slack. -/
theorem RecordAt.window_straddle
    (hr : RecordAt k header size b t r)
    (ht : t < size)
    (hover : size ≤ t + k)
    (hfit : k + r.length < size) :
    b.window (t + k - size) r.length = r := by
  apply List.ext_getElem
  · simp
  · intro i hi hi'
    have hbyte := hr.2 i hi'
    rcases pos_cases (i := k + i) ht (by omega) with ⟨hlt, hpos⟩ | ⟨hge, hpos⟩
    · omega
    · rw [Block.window_getElem, show t + k - size + i = t + (k + i) - size by omega,
        ← hpos, hbyte, List.getD_eq_getElem _ _ hi']

end Load

section Store

variable {k : Nat} {header : Nat → List UInt8} {size t : Nat}
variable {b : Block} {r : List UInt8}

/-- A record whose bytes end before the end of the circle. -/
theorem recordAt_put_straight
    (hlen : (header r.length).length = k)
    (hfit : t + k + r.length ≤ size) :
    RecordAt k header size
        ((b.put t (header r.length)).put (t + k) r) t r ∧
      ∀ a, ¬ Cell k size t r.length a →
        ((b.put t (header r.length)).put (t + k) r).byte a = b.byte a := by
  refine ⟨⟨?_, ?_⟩, ?_⟩
  · rw [Block.window_put_outside (by omega)]
    exact Block.window_put_self hlen
  · intro i hi
    rw [pos_of_lt (by omega), ← Nat.add_assoc]
    exact Block.put_byte_inside hi
  · intro a ha
    rw [Block.put_byte_outside, Block.put_byte_outside]
    · by_contra hin
      exact ha (Or.inl (by omega))
    · by_contra hin
      refine ha (Or.inr ⟨a - (t + k), by omega, ?_⟩)
      rw [pos_of_lt (by omega)]
      omega

/-- A record whose bytes are split at the end of the circle. -/
theorem recordAt_put_split
    {m : Nat}
    (hlen : (header r.length).length = k)
    (ht : t < size)
    (hm : t + k + m = size)
    (hmr : m ≤ r.length)
    (hfit : k + r.length < size) :
    RecordAt k header size
        (((b.put t (header r.length)).put (t + k) (r.take m)).put 0 (r.drop m))
        t r ∧
      ∀ a, ¬ Cell k size t r.length a →
        (((b.put t (header r.length)).put (t + k) (r.take m)).put 0
          (r.drop m)).byte a = b.byte a := by
  have htake : (r.take m).length = m := by simp; omega
  have hdrop : (r.drop m).length = r.length - m := by simp
  refine ⟨⟨?_, ?_⟩, ?_⟩
  · rw [Block.window_put_outside (by omega), Block.window_put_outside (by omega)]
    exact Block.window_put_self hlen
  · intro i hi
    rcases pos_cases (i := k + i) ht (by omega) with ⟨hlt, hpos⟩ | ⟨hge, hpos⟩
    · rw [hpos, Block.put_byte_outside (by omega), ← Nat.add_assoc,
        Block.put_byte_inside (by omega)]
      simp only [List.getD_eq_getElem?_getD, List.getElem?_take]
      rw [if_pos (by omega)]
    · rw [hpos, show t + (k + i) - size = 0 + (i - m) by omega,
        Block.put_byte_inside (by omega)]
      simp only [List.getD_eq_getElem?_getD, List.getElem?_drop]
      rw [show m + (i - m) = i by omega]
  · intro a ha
    rw [Block.put_byte_outside, Block.put_byte_outside, Block.put_byte_outside]
    · by_contra hin
      exact ha (Or.inl (by omega))
    · by_contra hin
      refine ha (Or.inr ⟨a - (t + k), by omega, ?_⟩)
      rw [pos_of_lt (by omega)]
      omega
    · by_contra hin
      refine ha (Or.inr ⟨a + m, by omega, ?_⟩)
      rcases pos_cases (i := k + (a + m)) ht (by omega) with h | h <;> omega

/-- A record whose header reaches the slack: its bytes start past the
skipped cells. -/
theorem recordAt_put_straddle
    (hlen : (header r.length).length = k)
    (ht : t < size)
    (hover : size ≤ t + k)
    (hfit : k + r.length < size) :
    RecordAt k header size
        ((b.put t (header r.length)).put (t + k - size) r) t r ∧
      ∀ a, ¬ Cell k size t r.length a →
        ((b.put t (header r.length)).put (t + k - size) r).byte a =
          b.byte a := by
  have hpos : ∀ i, i < r.length → pos size t (k + i) = t + k - size + i := by
    intro i hi
    rcases pos_cases (i := k + i) ht (by omega) with h | h <;> omega
  refine ⟨⟨?_, ?_⟩, ?_⟩
  · rw [Block.window_put_outside (by omega)]
    exact Block.window_put_self hlen
  · intro i hi
    rw [hpos i hi]
    exact Block.put_byte_inside hi
  · intro a ha
    rw [Block.put_byte_outside, Block.put_byte_outside]
    · by_contra hin
      exact ha (Or.inl (by omega))
    · by_contra hin
      refine ha (Or.inr ⟨a - (t + k - size), by omega, ?_⟩)
      rw [hpos _ (by omega)]
      omega

/-- Storing a record in any of these ways puts it there and keeps what lies
outside it. -/
theorem Stores.recordAt
    {b' : Block}
    (hlen : (header r.length).length = k)
    (ht : t < size)
    (hfit : k + r.length < size)
    (h : Stores k header size b t r b') :
    b'.size = b.size ∧ RecordAt k header size b' t r ∧
      ∀ a, ¬ Cell k size t r.length a → b'.byte a = b.byte a := by
  cases h with
  | straight hfit => exact ⟨rfl, recordAt_put_straight hlen hfit⟩
  | split hm hmr => exact ⟨rfl, recordAt_put_split hlen ht hm hmr hfit⟩
  | straddle hover => exact ⟨rfl, recordAt_put_straddle hlen ht hover hfit⟩

/-- It only writes bytes of the record. -/
theorem Stores.written
    {b' : Block}
    (hlen : (header r.length).length = k)
    (ht : t < size)
    (hfit : k + r.length < size)
    (h : Stores k header size b t r b') :
    ∃ ws, b'.written = b.written ++ ws ∧
      ∀ w ∈ ws, ∀ a, w.1 ≤ a → a < w.1 + w.2 → Cell k size t r.length a := by
  cases h with
  | straight hstraight =>
      refine ⟨[(t, k), (t + k, r.length)], by simp [Block.put, hlen], ?_⟩
      intro w hw a hlo hhi
      simp only [List.mem_cons, List.not_mem_nil, or_false] at hw
      rcases hw with rfl | rfl
      · exact .inl ⟨hlo, hhi⟩
      · refine .inr ⟨a - (t + k), by omega, ?_⟩
        rw [pos_of_lt (by omega)]
        omega
  | @split m hm hmr =>
      refine ⟨[(t, k), (t + k, m), (0, r.length - m)],
        by simp [Block.put, hlen, hmr], ?_⟩
      intro w hw a hlo hhi
      simp only [List.mem_cons, List.not_mem_nil, or_false] at hw
      rcases hw with rfl | rfl | rfl
      · exact .inl ⟨hlo, hhi⟩
      · refine .inr ⟨a - (t + k), by omega, ?_⟩
        rw [pos_of_lt (by omega)]
        omega
      · refine .inr ⟨a + m, by omega, ?_⟩
        rcases pos_cases (i := k + (a + m)) ht (by omega) with h | h <;> omega
  | straddle hover =>
      refine ⟨[(t, k), (t + k - size, r.length)], by simp [Block.put, hlen], ?_⟩
      intro w hw a hlo hhi
      simp only [List.mem_cons, List.not_mem_nil, or_false] at hw
      rcases hw with rfl | rfl
      · exact .inl ⟨hlo, hhi⟩
      · refine .inr ⟨a - (t + k - size), by omega, ?_⟩
        rcases pos_cases (i := k + (a - (t + k - size))) ht (by omega) with h | h <;> omega

end Store

end RecordRing
