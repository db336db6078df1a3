import Ebot.Outcome
import Ebot.Library.Bytes
import Ebot.Library.Words

/-!
# The ring queue

The byte ring of `ebot.c` (`ringq_new` to `ringq_destroy`).  A record is a
4-byte length followed by its bytes.  The length is always written
contiguously, even where it runs past `size - 1` into the slack bytes behind
the ring; the bytes of the record wrap around at `size`.

`int` arithmetic wraps (`int32`), `%` is C's truncated remainder, and every
`memcpy` is checked against the blocks it touches, its length taken as a
`size_t`.
-/

namespace Ebot

open Bytes Words

/-- `ringq`; `mem` is the block behind the header that `rq->mem` points to. -/
structure Ringq where
  head : Int
  tail : Int
  size : Int
  num : Int
  use_lock : Int
  mem : Block

/-- `sizeof(unit->length)`, which is also `sizeof(ring_item)`. -/
def lsz : Int := 4

/-- `memcpy(dst + d, src + s, n)` for an `int` length `n`. -/
def memcpy (dst : Block) (d : Int) (src : Block) (s : Int) (n : Int) :
    Except Stop Block :=
  orFault (dst.copy d src s (sizeT n))

/-- `ringq_empty`: `0` when empty. -/
def ringqEmpty (rq : Ringq) : Int :=
  if rq.tail = rq.head then 0 else -1

/-- `ringq_full`: `0` when full. -/
def ringqFull (rq : Ringq) : Int :=
  if (int32 (rq.tail + 1)).tmod rq.size = rq.head then 0 else -1

/-- `ringq_new`, with the outcomes of `malloc` and `pthread_mutex_init`. -/
def ringqNew (mallocOk : Bool) (mutexRet : Int) (size use_lock : Int) :
    Option Ringq :=
  if mallocOk then
    let rq : Ringq :=
      { head := 0, tail := 0, size := int32 (size + 1), num := 0, use_lock,
        mem := Block.zeroed (size + 1 + lsz).toNat }
    if use_lock ≠ 0 ∧ mutexRet < 0 then none else some rq
  else
    none

/-- The format of the `err_exit` in `ringq_pop`. -/
def outOfSize : String :=
  "ringq out of size, cap:%d, ava:%d, head:%d, tail:%d, length:%d, msize:%d, item_size:%d, num:%d"

/-- `rq->num--; return 0;` after a branch has moved `head` and filled `item`. -/
def ringqPopped (rq : Ringq) (item : Block) (head : Int) : Int × Ringq × Block :=
  (0, { rq with head := head, num := int32 (rq.num - 1) }, item)

/-- `ringq_pop`: the return code, the ring and the destination afterwards. -/
def ringqPop (rq : Ringq) (item : Block) (item_size : Int) :
    Except Stop (Int × Ringq × Block) :=
  if ringqEmpty rq = 0 then
    .ok (-1, rq, item)
  else do
    let hdr ← orFault (rq.mem.load rq.head 4)
    let length := intOfBytes hdr
    let msize := int32 (length + lsz)
    if rq.tail ≤ rq.head then
      let sz := int32 (rq.size - int32 (rq.head - rq.tail))
      if sz < msize then
        .error (.errExit outOfSize [rq.size - 1, sz, rq.head, rq.tail, length,
          msize, item_size, rq.num])
      else
        let m := int32 (rq.size - rq.head)
        if msize < m then
          let item ← memcpy item 0 rq.mem (rq.head + lsz) item_size
          .ok (ringqPopped rq item ((int32 (rq.head + msize)).tmod rq.size))
        else if lsz < m then
          -- the bytes continue at the start of the ring
          let item ← memcpy item 0 rq.mem (rq.head + lsz) (int32 (m - lsz))
          let head := (int32 (rq.head + m)).tmod rq.size
          let item ← memcpy item (m - lsz) rq.mem head
            (int32 (length - int32 (m - lsz)))
          .ok (ringqPopped rq item
            ((int32 (int32 (head + length) - int32 (m - lsz))).tmod rq.size))
        else
          -- the length reaches the slack: all bytes are at the start
          let head := (int32 (rq.head + lsz)).tmod rq.size
          let item ← memcpy item 0 rq.mem head item_size
          .ok (ringqPopped rq item ((int32 (head + length)).tmod rq.size))
    else
      let sz := int32 (rq.tail - rq.head)
      if sz < msize then
        .error (.errExit outOfSize [rq.size - 1, sz, rq.head, rq.tail, length,
          msize, item_size, rq.num])
      else
        let item ← memcpy item 0 rq.mem (rq.head + lsz) item_size
        .ok (ringqPopped rq item ((int32 (rq.head + msize)).tmod rq.size))

/-- `rq->num++; return 0;` after a branch has filled `mem` and moved `tail`. -/
def ringqPushed (rq : Ringq) (mem : Block) (tail : Int) : Int × Ringq :=
  (0, { rq with mem := mem, tail := tail, num := int32 (rq.num + 1) })

/-- `ringq_push`: the return code and the ring afterwards. -/
def ringqPush (rq : Ringq) (item : Block) (item_size : Int) :
    Except Stop (Int × Ringq) :=
  if ringqFull rq = 0 then
    .ok (-1, rq)
  else
    let msize := int32 (lsz + item_size)
    if rq.head ≤ rq.tail then
      let sz := int32 (int32 (rq.size - int32 (rq.tail - rq.head)) - 1)
      if sz < msize then
        .ok (-1, rq)
      else do
        let mem ← orFault (rq.mem.store rq.tail (intBytes item_size))
        let m := int32 (rq.size - rq.tail)
        if msize < m then
          let mem ← memcpy mem (rq.tail + lsz) item 0 item_size
          .ok (ringqPushed rq mem ((int32 (rq.tail + msize)).tmod rq.size))
        else if lsz < m then
          -- the bytes continue at the start of the ring
          let mem ← memcpy mem (rq.tail + lsz) item 0 (int32 (m - lsz))
          let tail := (int32 (rq.tail + m)).tmod rq.size
          let mem ← memcpy mem tail item (m - lsz)
            (int32 (item_size - int32 (m - lsz)))
          .ok (ringqPushed rq mem
            ((int32 (int32 (tail + item_size) - int32 (m - lsz))).tmod rq.size))
        else
          -- the length reaches the slack: all bytes go to the start
          let tail := (int32 (rq.tail + lsz)).tmod rq.size
          let mem ← memcpy mem tail item 0 item_size
          .ok (ringqPushed rq mem ((int32 (tail + item_size)).tmod rq.size))
    else
      let sz := int32 (int32 (rq.head - rq.tail) - 1)
      if sz < msize then
        .ok (-1, rq)
      else do
        let mem ← orFault (rq.mem.store rq.tail (intBytes item_size))
        let mem ← memcpy mem (rq.tail + lsz) item 0 item_size
        .ok (ringqPushed rq mem ((int32 (rq.tail + msize)).tmod rq.size))

/-- `ringq_pop_with_lock`; the lock makes the call one step. -/
def ringqPopWithLock (rq : Ringq) (item : Block) (item_size : Int) :
    Except Stop (Int × Ringq × Block) :=
  if rq.use_lock = 0 then .ok (-1, rq, item) else ringqPop rq item item_size

/-- `ringq_push_with_lock`; the lock makes the call one step. -/
def ringqPushWithLock (rq : Ringq) (item : Block) (item_size : Int) :
    Except Stop (Int × Ringq) :=
  if rq.use_lock = 0 then .ok (-1, rq) else ringqPush rq item item_size

end Ebot
