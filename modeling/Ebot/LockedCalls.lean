import Ebot.Library.Locks
import Ebot.RingqFifo
import Ebot.SlabPool

/-!
# The calls that take a lock

`ringq_push_with_lock` and `ringq_pop_with_lock` take the lock of the ring around
`ringq_push` and `ringq_pop`, `mpool_get_with_lock` and `mpool_put_with_lock` that of
the pool.  Everywhere else such a call is one step.  Here it is the statements of the
source, one action each, and a `memcpy` one action for each byte, while any number of
other threads runs in between.
-/

namespace Ebot

open Function Bytes Words Transition Locks

/-! ## The ring, statement by statement -/

/-- A program that works on a ring. -/
abbrev RingProg := Prog Stop Ringq

/-- One byte of `rq->mem` is written. -/
def Ringq.poke (rq : Ringq) (a : Nat) (b : UInt8) : Ringq :=
  { rq with mem := { rq.mem with byte := update rq.mem.byte a b } }

/-- Bytes are written into `rq->mem`, one after the other. -/
def pokeBytes (a : Nat) : List UInt8 → RingProg PUnit
  | [] => pure ⟨⟩
  | b :: bs => do
      Prog.modify fun rq => rq.poke a b
      pokeBytes (a + 1) bs

/-- Bytes of `rq->mem` are read, one after the other. -/
def peekBytes (a : Nat) : Nat → RingProg (List UInt8)
  | 0 => pure []
  | n + 1 => do
      let rq ← Prog.get
      let bs ← peekBytes (a + 1) n
      pure (rq.mem.byte a :: bs)

/-- A write into `rq->mem`; outside the block it is undefined.  The history of the block
gets the range with the last byte. -/
def storeBytes (a : Int) (bs : List UInt8) : RingProg PUnit := do
  let rq ← Prog.get
  if 0 ≤ a ∧ a + bs.length ≤ rq.mem.size then
    pokeBytes a.toNat bs
    Prog.modify fun rq =>
      { rq with mem := { rq.mem with written := rq.mem.written ++ [(a.toNat, bs.length)] } }
  else
    Prog.fail .fault

/-- A read from `rq->mem`; outside the block it is undefined. -/
def loadBytes (a : Int) (n : Nat) : RingProg (List UInt8) := do
  let rq ← Prog.get
  if 0 ≤ a ∧ a + n ≤ rq.mem.size then peekBytes a.toNat n else Prog.fail .fault

/-- `memcpy(rq->mem + d, item + s, n)`. -/
def memcpyIn (d : Int) (item : Block) (s n : Int) : RingProg PUnit := do
  let bs ← Prog.lift (orFault (item.load s (sizeT n)))
  storeBytes d bs

/-- `memcpy(item + d, rq->mem + s, n)`. -/
def memcpyOut (item : Block) (d s n : Int) : RingProg Block := do
  let bs ← loadBytes s (sizeT n)
  Prog.lift (orFault (item.store d bs))

/-- `rq->tail` is assigned. -/
def setTail (f : Ringq → Int) : RingProg PUnit :=
  Prog.modify fun rq => { rq with tail := f rq }

/-- `rq->head` is assigned. -/
def setHead (f : Ringq → Int) : RingProg PUnit :=
  Prog.modify fun rq => { rq with head := f rq }

/-- `rq->num++; return 0;`. -/
def pushed : RingProg Int := do
  Prog.modify fun rq => { rq with num := int32 (rq.num + 1) }
  pure 0

/-- `rq->num--; return 0;`. -/
def popped (item : Block) : RingProg (Int × Block) := do
  Prog.modify fun rq => { rq with num := int32 (rq.num - 1) }
  pure (0, item)

/-- `ringq_push`, between the lock and the unlock. -/
def ringqPushBody (item : Block) (item_size : Int) : RingProg Int := do
  let rq ← Prog.get
  if ringqFull rq = 0 then
    pure (-1)
  else
    let rq ← Prog.get
    let unit := rq.tail
    let msize := int32 (lsz + item_size)
    let rq ← Prog.get
    if rq.head ≤ rq.tail then
      let rq ← Prog.get
      let sz := int32 (int32 (rq.size - int32 (rq.tail - rq.head)) - 1)
      if sz < msize then
        pure (-1)
      else
        storeBytes unit (intBytes item_size)
        let rq ← Prog.get
        let m := int32 (rq.size - rq.tail)
        if msize < m then
          memcpyIn (unit + lsz) item 0 item_size
          setTail fun rq => (int32 (rq.tail + msize)).tmod rq.size
          pushed
        else if lsz < m then
          let rq ← Prog.get
          memcpyIn (rq.tail + lsz) item 0 (int32 (m - lsz))
          setTail fun rq => (int32 (rq.tail + m)).tmod rq.size
          let rq ← Prog.get
          memcpyIn rq.tail item (m - lsz) (int32 (item_size - int32 (m - lsz)))
          setTail fun rq => (int32 (int32 (rq.tail + item_size) - int32 (m - lsz))).tmod rq.size
          pushed
        else
          setTail fun rq => (int32 (rq.tail + lsz)).tmod rq.size
          let rq ← Prog.get
          memcpyIn rq.tail item 0 item_size
          setTail fun rq => (int32 (rq.tail + item_size)).tmod rq.size
          pushed
    else
      let rq ← Prog.get
      let sz := int32 (int32 (rq.head - rq.tail) - 1)
      if sz < msize then
        pure (-1)
      else
        storeBytes unit (intBytes item_size)
        memcpyIn (unit + lsz) item 0 item_size
        setTail fun rq => (int32 (rq.tail + msize)).tmod rq.size
        pushed

/-- `ringq_pop`, between the lock and the unlock. -/
def ringqPopBody (item : Block) (item_size : Int) : RingProg (Int × Block) := do
  let rq ← Prog.get
  if ringqEmpty rq = 0 then
    pure (-1, item)
  else
    let rq ← Prog.get
    let unit := rq.head
    let hdr ← loadBytes unit 4
    let length := intOfBytes hdr
    let msize := int32 (length + lsz)
    let rq ← Prog.get
    if rq.tail ≤ rq.head then
      let rq ← Prog.get
      let sz := int32 (rq.size - int32 (rq.head - rq.tail))
      if sz < msize then
        let rq ← Prog.get
        Prog.fail (.errExit outOfSize [rq.size - 1, sz, rq.head, rq.tail, length,
          msize, item_size, rq.num])
      else
        let rq ← Prog.get
        let m := int32 (rq.size - rq.head)
        if msize < m then
          let item ← memcpyOut item 0 (unit + lsz) item_size
          setHead fun rq => (int32 (rq.head + msize)).tmod rq.size
          popped item
        else if lsz < m then
          let rq ← Prog.get
          let item ← memcpyOut item 0 (rq.head + lsz) (int32 (m - lsz))
          setHead fun rq => (int32 (rq.head + m)).tmod rq.size
          let rq ← Prog.get
          let item ← memcpyOut item (m - lsz) rq.head (int32 (length - int32 (m - lsz)))
          setHead fun rq => (int32 (int32 (rq.head + length) - int32 (m - lsz))).tmod rq.size
          popped item
        else
          setHead fun rq => (int32 (rq.head + lsz)).tmod rq.size
          let rq ← Prog.get
          let item ← memcpyOut item 0 rq.head item_size
          setHead fun rq => (int32 (rq.head + length)).tmod rq.size
          popped item
    else
      let rq ← Prog.get
      let sz := int32 (rq.tail - rq.head)
      if sz < msize then
        let rq ← Prog.get
        Prog.fail (.errExit outOfSize [rq.size - 1, sz, rq.head, rq.tail, length,
          msize, item_size, rq.num])
      else
        let item ← memcpyOut item 0 (unit + lsz) item_size
        setHead fun rq => (int32 (rq.head + msize)).tmod rq.size
        popped item

/-- The calls on a ring. -/
inductive RingCall where
  | push (item : Block) (item_size : Int)
  | pop (item : Block) (item_size : Int)

/-- What they do between the lock and the unlock; a push leaves its item alone. -/
def ringBody : RingCall → RingProg (Int × Block)
  | .push item item_size => do
      let ret ← ringqPushBody item item_size
      pure (ret, item)
  | .pop item item_size => ringqPopBody item item_size

section RingBodies

variable {rq : Ringq} {item : Block} {β : Type}

/-- The bytes of a list, the first of them apart. -/
theorem put_cons_byte
    (b : Block) (a : Nat) (x : UInt8) (xs : List UInt8) (i : Nat) :
    (b.put a (x :: xs)).byte i = if i = a then x else (b.put (a + 1) xs).byte i := by
  by_cases hi : i = a
  · subst hi
    rw [if_pos rfl]
    simp [Block.put]
  · rw [if_neg hi]
    simp only [Block.put, List.length_cons]
    by_cases hin : a + 1 ≤ i ∧ i < a + 1 + xs.length
    · obtain ⟨j, rfl⟩ : ∃ j, i = a + 1 + j := ⟨i - (a + 1), by omega⟩
      rw [if_pos (by omega), if_pos hin, show a + 1 + j - a = j + 1 by omega,
        show a + 1 + j - (a + 1) = j by omega, List.getD_cons_succ]
    · rw [if_neg (by omega), if_neg hin]

/-- Byte by byte, a list is put into the block. -/
theorem run_pokeBytes
    (a : Nat) (bs : List UInt8) (rq : Ringq) :
    (pokeBytes a bs).run rq =
      .ok (⟨⟩, { rq with mem := { rq.mem with byte := (rq.mem.put a bs).byte } }) := by
  induction bs generalizing a rq with
  | nil =>
      have hbyte : (rq.mem.put a []).byte = rq.mem.byte :=
        funext fun i => Block.put_byte_outside (by simp; omega)
      rw [hbyte]
      rfl
  | cons b bs ih =>
      rw [pokeBytes, Prog.run_modify_bind, ih]
      have hbyte : ((rq.poke a b).mem.put (a + 1) bs).byte = (rq.mem.put a (b :: bs)).byte := by
        funext i
        rw [put_cons_byte]
        by_cases hi : i = a
        · subst hi
          rw [if_pos rfl, Block.put_byte_outside (.inl (by omega))]
          exact update_self _ _ _
        · rw [if_neg hi]
          simp only [Block.put]
          split
          · rfl
          · exact update_of_ne hi _ _
      rw [hbyte]
      rfl

/-- Byte by byte, a window of the block is read. -/
theorem run_peekBytes
    (a n : Nat) (rq : Ringq) :
    (peekBytes a n).run rq = .ok (rq.mem.window a n, rq) := by
  induction n generalizing a with
  | zero => rfl
  | succ n ih =>
      rw [peekBytes, Prog.run_get_bind, Prog.run_bind, ih]
      simp only [Except.bind, Prog.run_pure, Block.window, List.range_succ_eq_map,
        List.map_cons, List.map_map, Nat.add_zero]
      congr 3
      refine List.map_congr_left fun i _ => ?_
      change rq.mem.byte (a + 1 + i) = rq.mem.byte (a + (i + 1))
      rw [Nat.add_assoc, Nat.add_comm 1 i]

/-- A write, alone. -/
theorem run_storeBytes
    (a : Int) (bs : List UInt8) (rq : Ringq) (g : PUnit → RingProg β) :
    (storeBytes a bs >>= g).run rq =
      (orFault (rq.mem.store a bs) >>= fun mem => (g ⟨⟩).run { rq with mem }) := by
  rw [Prog.run_bind, storeBytes, Prog.run_get_bind]
  unfold Block.store
  by_cases hin : 0 ≤ a ∧ a + bs.length ≤ rq.mem.size
  · rw [if_pos hin, if_pos hin, Prog.run_bind, run_pokeBytes]
    rfl
  · rw [if_neg hin, if_neg hin]
    rfl

/-- A read, alone. -/
theorem run_loadBytes
    (a : Int) (n : Nat) (rq : Ringq) (g : List UInt8 → RingProg β) :
    (loadBytes a n >>= g).run rq =
      (orFault (rq.mem.load a n) >>= fun bs => (g bs).run rq) := by
  rw [Prog.run_bind, loadBytes, Prog.run_get_bind]
  unfold Block.load
  by_cases hin : 0 ≤ a ∧ a + n ≤ rq.mem.size
  · rw [if_pos hin, if_pos hin, run_peekBytes]
    rfl
  · rw [if_neg hin, if_neg hin]
    rfl

/-- A copy into the ring, alone. -/
theorem run_memcpyIn
    (d : Int) (item : Block) (s n : Int) (rq : Ringq) (g : PUnit → RingProg β) :
    (memcpyIn d item s n >>= g).run rq =
      (memcpy rq.mem d item s n >>= fun mem => (g ⟨⟩).run { rq with mem }) := by
  have hassoc : (memcpyIn d item s n >>= g).run rq =
      (Prog.lift (orFault (item.load s (sizeT n))) >>= fun bs =>
        storeBytes d bs >>= g).run rq := by
    rw [Prog.run_bind, memcpyIn, Prog.run_bind, Prog.run_bind]
    cases (Prog.lift (orFault (item.load s (sizeT n)))).run rq with
    | error e => rfl
    | ok x => exact (Prog.run_bind _ _ _).symm
  rw [hassoc, Prog.run_bind, Prog.run_lift]
  unfold memcpy Block.copy
  cases item.load s (sizeT n) with
  | none => rfl
  | some bs => exact run_storeBytes d bs rq g

/-- A copy out of the ring, alone. -/
theorem run_memcpyOut
    (item : Block) (d s n : Int) (rq : Ringq) (g : Block → RingProg β) :
    (memcpyOut item d s n >>= g).run rq =
      (memcpy item d rq.mem s n >>= fun item => (g item).run rq) := by
  rw [Prog.run_bind, memcpyOut, run_loadBytes]
  unfold memcpy Block.copy
  cases rq.mem.load s (sizeT n) with
  | none => rfl
  | some bs =>
      cases hstore : item.store d bs with
      | none =>
          change Except.bind ((Prog.lift (orFault (item.store d bs))).run rq) _ =
            (orFault (item.store d bs)).bind _
          rw [hstore]
          rfl
      | some item' =>
          change Except.bind ((Prog.lift (orFault (item.store d bs))).run rq) _ =
            (orFault (item.store d bs)).bind _
          rw [hstore]
          rfl

/-- The statements of `ringq_push`, alone, are `ringq_push`. -/
theorem run_ringqPushBody
    (item : Block) (item_size : Int) (rq : Ringq) :
    (ringqPushBody item item_size).run rq = ringqPush rq item item_size := by
  simp only [ringqPushBody, Prog.run_get_bind, Prog.run_ite, Prog.run_pure, run_storeBytes,
    run_memcpyIn, setTail, pushed, Prog.run_modify_bind]
  rfl

/-- The statements of `ringq_pop`, alone, are `ringq_pop`. -/
theorem run_ringqPopBody
    (item : Block) (item_size : Int) (rq : Ringq) :
    (ringqPopBody item item_size).run rq =
      (ringqPop rq item item_size).map fun o => ((o.1, o.2.2), o.2.1) := by
  simp only [ringqPopBody, Prog.run_get_bind, Prog.run_ite, Prog.run_pure, run_loadBytes,
    run_memcpyOut, setHead, popped, Prog.run_modify_bind, Prog.run_fail]
  have hite : ∀ (c : Prop) [Decidable c] (x y : Except Stop (Int × Ringq × Block)),
      (if c then x else y).map (fun o => ((o.1, o.2.2), o.2.1)) =
        if c then x.map (fun o => ((o.1, o.2.2), o.2.1))
        else y.map (fun o => ((o.1, o.2.2), o.2.1)) := by
    intro c _ x y
    split <;> rfl
  have hbind : ∀ {α : Type} (x : Except Stop α) (f : α → Except Stop (Int × Ringq × Block)),
      (x >>= f).map (fun o => ((o.1, o.2.2), o.2.1)) =
        x >>= fun a => (f a).map fun o => ((o.1, o.2.2), o.2.1) := by
    intro α x f
    cases x <;> rfl
  simp only [ringqPop, hite, hbind]
  rfl

end RingBodies

/-! ## The ring among threads -/

section SharedRing

variable {τ : Type} {cap L : Nat} {rq : Ringq} {recs : List (List UInt8)}

/-- What a call does to a bounded FIFO of byte strings. -/
inductive FifoCall (cap : Nat) :
    List (List UInt8) → τ × RingCall × (Int × Block) → List (List UInt8) → Prop
  | push {recs : List (List UInt8)} {t : τ} {item : Block} {n : Nat} :
      FifoCall cap recs (t, .push item n, ((fifoPush cap recs (item.window 0 n)).1, item))
        (fifoPush cap recs (item.window 0 n)).2
  | empty {t : τ} {item : Block} {n : Int} :
      FifoCall cap [] (t, .pop item n, (-1, item)) []
  | pop {t : τ} {r : List UInt8} {rs : List (List UInt8)} {item item' : Block} {n : Int} :
      PoppedInto r item item' →
      FifoCall cap (r :: rs) (t, .pop item n, (0, item')) rs

/-- Calls for records of one length, with room for it; the server pushes and pops
nothing but `pack_data`. -/
def RingCall.Sized (L : Nat) : RingCall → Prop
  | .push item n => n = L ∧ L ≤ item.size
  | .pop item n => n = L ∧ L ≤ item.size

instance (L : Nat) : DecidablePred (RingCall.Sized L) := fun
  | .push _ _ => inferInstanceAs (Decidable (_ ∧ _))
  | .pop _ _ => inferInstanceAs (Decidable (_ ∧ _))

/-- The ring, which has a lock, has been reached with these records, all of one
length. -/
structure RingOf (cap L : Nat) (rq : Ringq) (recs : List (List UInt8)) : Prop where
  reach : RingReach cap rq recs
  length : ∀ r ∈ recs, r.length = L
  lock : rq.use_lock ≠ 0

theorem RingOf.push
    {item : Block}
    (h : RingOf cap L rq recs)
    (hcap : CapInRange cap)
    (hL : InInt (4 + L))
    (hitem : L ≤ item.size) :
    ∃ rq', ringqPush rq item L = .ok ((fifoPush cap recs (item.window 0 L)).1, rq') ∧
      RingOf cap L rq' (fifoPush cap recs (item.window 0 L)).2 := by
  obtain ⟨_, hold⟩ := h.reach.holds hcap
  obtain ⟨rq', hpush, -⟩ := hold.push hcap hitem hL
  refine ⟨rq', hpush, h.reach.push hitem hL hpush, fun r hr => ?_, ?_⟩
  · unfold fifoPush at hr
    split at hr
    · rcases List.mem_append.mp hr with hr | hr
      · exact h.length r hr
      · rw [List.mem_singleton.mp hr]
        exact Block.window_length
    · exact h.length r hr
  · have hlock : rq'.use_lock = rq.use_lock := by
      by_cases hroom : 4 + L ≤ cap - used recs
      · obtain ⟨_, hpush', -⟩ := ringqPush_room hcap hold hitem hroom
        rw [hpush', Except.ok.injEq] at hpush
        rw [← (Prod.mk.inj hpush).2]
      · rw [ringqPush_refused item hcap hold hL hroom, Except.ok.injEq] at hpush
        rw [← (Prod.mk.inj hpush).2]
    rw [hlock]
    exact h.lock

theorem RingOf.pop
    {item : Block} {r : List UInt8} {rs : List (List UInt8)}
    (h : RingOf cap L rq (r :: rs))
    (hcap : CapInRange cap)
    (hitem : L ≤ item.size) :
    ∃ rq' item', ringqPop rq item L = .ok (0, rq', item') ∧ PoppedInto r item item' ∧
      RingOf cap L rq' rs := by
  obtain ⟨_, hold⟩ := h.reach.holds hcap
  have hr : r.length = L := h.length r List.mem_cons_self
  obtain ⟨item', hpop, hdel⟩ := ringqPop_cons item hcap hold (hr ▸ hitem)
  rw [hr] at hpop
  refine ⟨_, item', hpop, hdel, ?_, fun r' hr' => h.length r' (List.mem_cons_of_mem _ hr'),
    h.lock⟩
  refine h.reach.pop (fun r' rs' he => ?_) hpop
  obtain ⟨rfl, rfl⟩ := List.cons.inj he
  exact ⟨hr.symm, hitem⟩

/-- The calls implement the FIFO. -/
theorem implements_fifo
    (hcap : CapInRange cap)
    (hL : InInt (4 + L)) :
    Implements ringBody (RingCall.Sized L) (FifoCall (τ := τ) cap) (RingOf cap L) := by
  intro rq recs t c h hsized
  cases c with
  | push item n =>
      obtain ⟨rfl, hitem⟩ := hsized
      obtain ⟨rq', hpush, hring⟩ := h.push hcap hL hitem
      refine ⟨_, rq', _, ?_, .push, hring⟩
      rw [ringBody, Prog.run_bind, run_ringqPushBody, hpush]
      rfl
  | pop item n =>
      obtain ⟨rfl, hitem⟩ := hsized
      cases recs with
      | nil =>
          obtain ⟨_, hold⟩ := h.reach.holds hcap
          refine ⟨_, rq, [], ?_, .empty, h⟩
          rw [ringBody, run_ringqPopBody, ringqPop_nil hold]
          rfl
      | cons r rs =>
          obtain ⟨rq', item', hpop, hdel, hring⟩ := h.pop hcap hitem
          refine ⟨_, rq', rs, ?_, .pop hdel, hring⟩
          rw [ringBody, run_ringqPopBody, hpop]
          rfl

end SharedRing

/-- **The locked ring is one FIFO for all threads.**  Any number of threads push records
of one length into a ring with a lock and pop them, and their statements and the bytes of
their `memcpy`s are interleaved in any way.  The calls that have given the lock back are a
run of the bounded FIFO, in that order; the ring holds its records whenever the lock is
free; every thread makes its calls one after the other, each giving the lock back between
its beginning and its end; and no action faults or exits. -/
theorem shared_ring_is_fifo
    {τ : Type} [DecidableEq τ] {cap L : Nat} {rq₀ : Ringq} {mutexRet use_lock : Int}
    {s : State Stop Ringq τ RingCall (Int × Block)}
    (hcap : CapInRange cap)
    (hL : InInt (4 + L))
    (hlock : use_lock ≠ 0)
    (hnew : ringqNew true mutexRet cap use_lock = some rq₀)
    (hreach : Reach (Locks.step ringBody) (Makes (RingCall.Sized L)) (start rq₀) s) :
    (∃ recs, Path (FifoCall cap) [] (done s.log) recs ∧
        (s.owner = none → RingReach cap s.shared recs ∧ s.shared.use_lock ≠ 0)) ∧
      Sequential s ∧
      ∀ m e, Locks.step ringBody s m ≠ .error (some e) := by
  have hstart : RingOf cap L rq₀ [] := by
    refine ⟨.new mutexRet use_lock hnew, nofun, ?_⟩
    unfold ringqNew at hnew
    split at hnew
    · dsimp only at hnew
      split at hnew <;> cases hnew
      exact hlock
    · cases hnew
  obtain ⟨⟨recs, hpath, hring⟩, hseq, hsafe⟩ := (implements_fifo hcap hL).of_reach hstart hreach
  exact ⟨⟨recs, hpath, fun hfree => ⟨(hring hfree).reach, (hring hfree).lock⟩⟩, hseq, hsafe⟩

/-- One thread pushes a byte; another one calls pop while the first is inside, and gets
the byte. -/
theorem shared_ring_is_fifo_two_threads :
    ∃ (rq₀ : Ringq) (s : State Stop Ringq Bool RingCall (Int × Block)),
      Reach (Locks.step ringBody) (Makes (RingCall.Sized 1)) (start rq₀) s ∧
        (done s.log).map (fun x => (x.1, x.2.2.1, x.2.2.2.window 0 1)) =
          [(true, 0, [65]), (false, 0, [65])] ∧
        ∃ recs, Path (FifoCall 10) [] (done s.log) recs ∧
          (s.owner = none → RingReach 10 s.shared recs ∧ s.shared.use_lock ≠ 0) := by
  obtain ⟨s, hreach, hcheck⟩ := reach_of_endsIn
    (Locks.step ringBody) (Makes (RingCall.Sized 1))
    (start (⟨0, 0, 11, 0, 1, Block.zeroed 15⟩ : Ringq) :
      State Stop Ringq Bool RingCall (Int × Block))
    none
    ([.call true (.push (Block.ofList [65]) 1), .run true, .run true,
        .call false (.pop (Block.zeroed 1) 1)] ++
      List.replicate 16 (.run true) ++ List.replicate 15 (.run false))
    (fun s => decide ((done s.log).map (fun x => (x.1, x.2.2.1, x.2.2.2.window 0 1)) =
      [(true, 0, [65]), (false, 0, [65])]))
    (by decide +kernel)
  rw [decide_eq_true_eq] at hcheck
  have hnew : ringqNew true 0 (10 : Nat) 1 = some ⟨0, 0, 11, 0, 1, Block.zeroed 15⟩ := rfl
  exact ⟨_, s, hreach, hcheck,
    (shared_ring_is_fifo (by decide) (by decide) (by decide) hnew hreach).1⟩

/-! ## The pool -/

/-- A program that works on a pool. -/
abbrev PoolProg := Prog Stop Mpool

/-- `mpool_get`, between the lock and the unlock. -/
def mpoolGetBody : PoolProg (Option Nat) := do
  let mp ← Prog.get
  let s ← Prog.lift (orFault mp.head)
  let mp ← Prog.get
  if (mp.slabs s).used then
    pure none
  else
    Prog.modify fun mp => mp.setUsed s true
    Prog.modify fun mp => { mp with slab_used := mp.slab_used + 1 }
    let mp ← Prog.get
    let n ← Prog.lift (orFault (mp.slabs s).next)
    Prog.modify fun mp => { mp with head := some n }
    Prog.modify fun mp => mp.setPrev n none
    let mp ← Prog.get
    let t ← Prog.lift (orFault mp.tail)
    Prog.modify fun mp => mp.setNext t (some s)
    Prog.modify fun mp => mp.setNext s none
    Prog.modify fun mp => mp.setPrev s (some t)
    Prog.modify fun mp => { mp with tail := some s }
    pure (some s)

/-- `mpool_put`, between the lock and the unlock. -/
def mpoolPutBody (s : Nat) : PoolProg PUnit := do
  let mp ← Prog.get
  if ¬ s < mp.slab_num then
    Prog.fail .abort
  else
    let mp ← Prog.get
    if (mp.slabs s).used then
      Prog.modify fun mp => { mp with slab_used := mp.slab_used - 1 }
      Prog.modify fun mp => mp.setUsed s false
      let mp ← Prog.get
      match (mp.slabs s).prev with
      | none => pure ⟨⟩
      | some p =>
          let mp ← Prog.get
          match (mp.slabs s).next with
          | none =>
              Prog.modify fun mp => mp.setNext p none
              Prog.modify fun mp => { mp with tail := some p }
          | some n =>
              Prog.modify fun mp => mp.setNext p (some n)
              Prog.modify fun mp => mp.setPrev n (some p)
          Prog.modify fun mp => mp.setPrev s none
          Prog.modify fun mp => mp.setNext s mp.head
          let mp ← Prog.get
          let h ← Prog.lift (orFault mp.head)
          Prog.modify fun mp => mp.setPrev h (some s)
          Prog.modify fun mp => { mp with head := some s }
    else
      pure ⟨⟩

/-- The calls on a pool.  What is put is the `data` of a slab, given by the number of
the slab; any number that is not one stands for a pointer that is not into the pool. -/
inductive PoolCall where
  | get
  | put (s : Nat)

/-- What they do between the lock and the unlock. -/
def poolBody : PoolCall → PoolProg (Option Nat)
  | .get => mpoolGetBody
  | .put s => do
      mpoolPutBody s
      pure none

/-- The statements of `mpool_get`, alone, are `mpool_get`. -/
theorem run_mpoolGetBody
    (mp : Mpool) :
    mpoolGetBody.run mp = mpoolGet mp := by
  simp only [mpoolGetBody, Prog.run_get_bind, Prog.run_lift_bind, Prog.run_ite, Prog.run_pure,
    Prog.run_modify_bind]
  rfl

/-- The statements of `mpool_put`, alone, are `mpool_put`. -/
theorem run_mpoolPutBody
    (s : Nat) (mp : Mpool) :
    (mpoolPutBody s).run mp = (mpoolPut mp s).map fun mp => (⟨⟩, mp) := by
  simp only [mpoolPutBody, Prog.run_get_bind, Prog.run_ite, Prog.run_pure, Prog.run_fail,
    Prog.run_modify_bind]
  unfold mpoolPut
  by_cases hs : ¬ s < mp.slab_num
  · rw [if_pos hs, if_pos hs]
    rfl
  rw [if_neg hs, if_neg hs]
  by_cases hused : (mp.slabs s).used = true
  · rw [if_pos hused, if_pos hused]
    dsimp only
    generalize ({ mp with slab_used := mp.slab_used - 1 } : Mpool).setUsed s false = mp'
    obtain ⟨slabs, head, tail, slab_num, slab_size, slab_used⟩ := mp'
    cases (slabs s).prev with
    | none => rfl
    | some p =>
        simp only [Prog.run_get_bind]
        cases (slabs s).next with
        | none => cases head <;> rfl
        | some n => cases head <;> rfl
  · rw [if_neg hused, if_neg hused]
    rfl

/-- What a call does to the set of slabs of a pool of `n` that are handed out: a get
answers with one that is not, or with `NULL` when all are; a put takes one back. -/
inductive SlabCall (n : Nat) {τ : Type} :
    (Nat → Bool) → τ × PoolCall × Option Nat → (Nat → Bool) → Prop
  | got {out : Nat → Bool} {t : τ} {p : Nat} :
      p < n →
      out p = false →
      SlabCall n out (t, .get, some p) (update out p true)
  | none {out : Nat → Bool} {t : τ} :
      (∀ p, p < n → out p = true) →
      SlabCall n out (t, .get, none) out
  | put {out : Nat → Bool} {t : τ} {p : Nat} :
      p < n →
      SlabCall n out (t, .put p, none) (update out p false)

/-- A pool of `n` slabs in order, its marks the set. -/
structure HandedOut (n : Nat) (mp : Mpool) (out : Nat → Bool) : Prop where
  ordered : ∃ free busy, mp.Ordered free busy
  num : mp.slab_num = n
  marks : ∀ p, (mp.slabs p).used = out p

section SharedPool

variable {τ : Type} {n : Nat} {mp mp' : Mpool} {out : Nat → Bool}
variable {x : τ × PoolCall × Option Nat}

/-- A call, alone. -/
theorem HandedOut.alone
    (hout : HandedOut n mp out)
    (h : Alone poolBody mp x mp') :
    ∃ out', SlabCall n out x out' ∧ HandedOut n mp' out' := by
  obtain ⟨⟨free, busy, hordered⟩, hnum, hmarks⟩ := hout
  obtain ⟨t, c, o⟩ := x
  cases c with
  | get =>
      have hget : mpoolGet mp = .ok (o, mp') := (run_mpoolGetBody mp).symm.trans h
      obtain ⟨hordered', hnum', hanswer⟩ := hordered.of_get hget
      cases o with
      | none =>
          subst hanswer
          obtain rfl := mpoolGet_none hget
          refine ⟨out, .none fun p hp => ?_, hordered', hnum, hmarks⟩
          rw [← hmarks]
          exact hordered.marked p ((hordered.slabs p).mpr (hnum ▸ hp))
      | some s =>
          obtain ⟨-, hfree, -, -, hused⟩ := mpoolGet_some hget
          refine ⟨_, .got (hnum ▸ hanswer) ((hmarks s).symm.trans hfree), hordered',
            hnum'.trans hnum, fun p => ?_⟩
          rw [hused p, update_apply, hmarks p]
  | put s =>
      have hrun : ((mpoolPutBody s).run mp).bind _ = .ok (o, mp') :=
        (Prog.run_bind (mpoolPutBody s) _ mp).symm.trans h
      rw [run_mpoolPutBody] at hrun
      cases hput : mpoolPut mp s with
      | error e =>
          rw [hput] at hrun
          cases hrun
      | ok mp'' =>
          rw [hput] at hrun
          cases hrun
          obtain ⟨hordered', hnum', hlt⟩ := hordered.of_put hput
          obtain ⟨-, hused⟩ := mpoolPut_used hput
          refine ⟨_, .put (hnum ▸ hlt), hordered', hnum'.trans hnum, fun p => ?_⟩
          rw [hused p, update_apply, hmarks p]

/-- Calls that are made alone, one after the other. -/
theorem HandedOut.path
    {xs : List (τ × PoolCall × Option Nat)}
    (hout : HandedOut n mp out)
    (hpath : Path (Alone poolBody) mp xs mp') :
    ∃ out', Path (SlabCall n) out xs out' ∧ HandedOut n mp' out' := by
  induction hpath with
  | nil => exact ⟨out, .nil, hout⟩
  | snoc _ hx ih =>
      obtain ⟨out₁, hpath₁, hout₁⟩ := ih
      obtain ⟨out₂, hcall, hout₂⟩ := hout₁.alone hx
      exact ⟨out₂, hpath₁.snoc hcall, hout₂⟩

end SharedPool

end Ebot
