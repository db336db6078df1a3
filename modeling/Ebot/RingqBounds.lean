import Ebot.RingqFifo

/-!
# Where the ring queue reads and writes

The block behind a ring has `cap + 5` bytes: `cap + 1` cells and the slack a
header may run into.  Every access of the model is checked against the block,
so a call that has a result made all its accesses inside it.  What is left is
*which* bytes a push writes: those of the new record (`Stores.written`), and
never one of a record that is still pending.
-/

namespace Ebot

open Bytes Words Circular RecordRing

/-- A byte of the header or of the data of a record that is still pending. -/
def Ringq.PendingByte (rq : Ringq) (recs : List (List UInt8)) (a : Nat) : Prop :=
  Occupied 4 rq.size.toNat rq.head.toNat recs a

/-- The push returns, and all the bytes it writes satisfy `p`. -/
def PushWrites (rq : Ringq) (item : Block) (n : Int) (p : Nat → Prop) : Prop :=
  ∃ ret rq' ws, ringqPush rq item n = .ok (ret, rq') ∧
    rq'.mem.written = rq.mem.written ++ ws ∧
    ∀ w ∈ ws, ∀ a, w.1 ≤ a → a < w.1 + w.2 → p a

section Bounds

variable {cap h : Nat} {rq : Ringq} {recs : List (List UInt8)}

/-- A pending record is stored where the records before it end. -/
theorem Holds.recordAt
    {before after : List (List UInt8)} {r : List UInt8}
    (hold : Holds cap h rq (before ++ r :: after)) :
    RecordAt 4 lengthHeader rq.size.toNat rq.mem
      (pos rq.size.toNat rq.head.toNat (used before)) r := by
  have hlaid := hold.laid
  have hh : h < cap + 1 := by
    have := hold.head_le
    omega
  rw [hold.size, hold.head, Int.toNat_natCast, Int.toNat_natCast]
  rw [← pos_zero hh] at hlaid
  have hrec := hlaid.recordAt
  rwa [Nat.zero_add] at hrec

/-- A push writes bytes of the block that belong to no pending record. -/
theorem Holds.pushWrites
    {item : Block} {n : Nat}
    (hcap : CapInRange cap)
    (hold : Holds cap h rq recs)
    (hitem : n ≤ item.size)
    (hn : InInt (4 + n)) :
    PushWrites rq item n fun a => (a : Int) < rq.size + lsz ∧ ¬ rq.PendingByte recs a := by
  have hle := hold.head_le
  unfold Ringq.PendingByte
  rw [hold.size, hold.head, Int.toNat_natCast, Int.toNat_natCast]
  by_cases hroom : 4 + n ≤ cap - used recs
  · have hused := hold.room
    have hlen : (item.window 0 n).length = n := Block.window_length
    obtain ⟨mem', hpush, hstores⟩ := ringqPush_room hcap hold hitem hroom
    have hhdr : (lengthHeader (item.window 0 n).length).length = 4 := rfl
    obtain ⟨ws, hws, hcells⟩ := hstores.written hhdr (pos_lt (by omega)) (by omega)
    refine ⟨_, _, ws, hpush, hws, ?_⟩
    intro w hw a hlo hhi
    have hcell := hcells w hw a hlo hhi
    constructor
    · have hlt := hcell.lt (pos_lt (by omega))
      unfold lsz
      omega
    · refine hcell.not_occupied (by omega) ?_
      change used recs + 4 + _ < _
      omega
  · exact ⟨_, _, [], ringqPush_refused item hcap hold hn hroom, by simp, by simp⟩

end Bounds

/-- **Ring accesses stay in the block and spare what is pending.**  The block
`ringq_new` allocated has `size + 4` bytes, and the pending records are stored
in it.  Every push returns and writes only bytes of the block that no pending
record has; the length at `tail` that its debug output reads is inside as well.
Every pop returns, so its reads are inside. -/
theorem ring_accesses_in_bounds
    {cap : Nat} {rq : Ringq} {recs : List (List UInt8)}
    (hcap : CapInRange cap)
    (hreach : RingReach cap rq recs) :
    (rq.mem.size : Int) = rq.size + lsz ∧
      (∀ before r after, recs = before ++ r :: after →
        RecordAt 4 lengthHeader rq.size.toNat rq.mem
          (pos rq.size.toNat rq.head.toNat (used before)) r) ∧
      (∀ (item : Block) (n : Nat), n ≤ item.size → InInt (4 + n) →
        PushWrites rq item n fun a =>
          (a : Int) < rq.size + lsz ∧ ¬ rq.PendingByte recs a) ∧
      (∃ hdr, rq.mem.load rq.tail 4 = some hdr) ∧
      ∀ (item : Block) (n : Nat),
        (∀ r rs, recs = r :: rs → n = r.length ∧ n ≤ item.size) →
        ∃ o, ringqPop rq item n = .ok o := by
  obtain ⟨h, hold⟩ := hreach.holds hcap
  have hle := hold.head_le
  refine ⟨?_, ?_, ?_, ?_, ?_⟩
  · rw [hold.mem_size, hold.size]
    unfold lsz
    omega
  · rintro before r after rfl
    exact hold.recordAt
  · intro item n hitem hn
    exact hold.pushWrites hcap hitem hn
  · have ht : pos (cap + 1) h (used recs) < cap + 1 := pos_lt (by omega)
    have hms := hold.mem_size
    rw [hold.tail, Block.load_natCast (by omega)]
    exact ⟨_, rfl⟩
  · intro item n hitem
    cases recs with
    | nil => exact ⟨_, ringqPop_nil hold⟩
    | cons r rs =>
        obtain ⟨rfl, hsize⟩ := hitem r rs rfl
        obtain ⟨item', hpop, -⟩ := ringqPop_cons item hcap hold hsize
        exact ⟨_, hpop⟩

/-- A ring of twenty bytes with a pending record of six: the push of one more byte
succeeds beside it. -/
theorem ring_accesses_in_bounds_pending :
    ∃ rq rq' : Ringq, RingReach 20 rq [[1, 2, 3, 4, 5, 6]] ∧
      ringqPush rq (Block.ofList [7]) 1 = .ok (0, rq') ∧
      (rq.mem.size : Int) = rq.size + lsz ∧
        PushWrites rq (Block.ofList [7]) 1 fun a =>
          (a : Int) < rq.size + lsz ∧ ¬ rq.PendingByte [[1, 2, 3, 4, 5, 6]] a := by
  have hcap : CapInRange 20 := by decide
  have hnew : RingReach 20 _ [] := .new 0 1 rfl
  have hsix : 6 ≤ (Block.ofList [1, 2, 3, 4, 5, 6]).size := by decide
  have hone : 1 ≤ (Block.ofList [7]).size := by decide
  obtain ⟨h, hold⟩ := hnew.holds hcap
  obtain ⟨rq, hpush, hheld, -⟩ := hold.push hcap hsix (by decide)
  obtain ⟨rq', hsecond, -⟩ := hheld.push hcap hone (by decide)
  have hreach := hnew.push hsix (by decide) hpush
  obtain ⟨hsize, -, hwrites, -⟩ := ring_accesses_in_bounds hcap hreach
  exact ⟨rq, rq', hreach, hsecond, hsize, hwrites (Block.ofList [7]) 1 hone (by decide)⟩

end Ebot
