import Ebot.Ringq
import Ebot.Library.RecordRing

/-!
# The ring queue is a bounded FIFO of byte strings

What the ring is for: a queue of byte strings in which a string of length `n`
takes `4 + n` of `cap` units of space.  `fifoPush` and `fifoPop` say so; the
rest of the module proves that `ringqPush` and `ringqPop` do exactly that.

`Holds cap h rq recs` is the representation invariant: the records `recs` are
laid out on the circle of `cap + 1` cells from `h = rq->head` on, and `tail`,
`num` and the block agree with them.
-/

namespace Ebot

open Bytes Words Circular RecordRing

/-- Space the pending records take. -/
abbrev used (recs : List (List UInt8)) : Nat := spans 4 recs

theorem used_cons
    (r : List UInt8) (rs : List (List UInt8)) :
    used (r :: rs) = 4 + r.length + used rs := by
  simp [used, span]

theorem used_append_singleton
    (rs : List (List UInt8)) (r : List UInt8) :
    used (rs ++ [r]) = used rs + (4 + r.length) := by
  simp [used, span]

/-- Push of the reference queue: return code and records afterwards. -/
def fifoPush (cap : Nat) (recs : List (List UInt8)) (bs : List UInt8) :
    Int × List (List UInt8) :=
  if 4 + bs.length ≤ cap - used recs then (0, recs ++ [bs]) else (-1, recs)

/-- Pop of the reference queue: return code, record and records afterwards. -/
def fifoPop : List (List UInt8) → Int × Option (List UInt8) × List (List UInt8)
  | [] => (-1, none, [])
  | r :: rs => (0, some r, rs)

/-- The header `ringq_push` writes in front of `n` bytes. -/
def lengthHeader (n : Nat) : List UInt8 := intBytes (n : Int)

/-- The ring `rq` of capacity `cap` holds the records `recs` from `h` on. -/
structure Holds (cap h : Nat) (rq : Ringq) (recs : List (List UInt8)) : Prop where
  head : rq.head = (h : Int)
  head_le : h ≤ cap
  tail : rq.tail = (pos (cap + 1) h (used recs) : Int)
  size : rq.size = ((cap + 1 : Nat) : Int)
  mem_size : rq.mem.size = cap + 5
  num : rq.num = (recs.length : Int)
  room : used recs ≤ cap
  laid : Laid 4 lengthHeader (cap + 1) rq.mem h recs

/-- The arithmetic on `head` and `tail` of a ring of this capacity stays in
`int` range: both are at most `cap`, and so is what is added to them. -/
def CapInRange (cap : Nat) : Prop := 2 * cap ≤ 2147483647

instance (cap : Nat) : Decidable (CapInRange cap) :=
  inferInstanceAs (Decidable (_ ≤ _))

theorem int32_of_range
    {x : Int}
    (hlo : -2147483648 ≤ x)
    (hhi : x ≤ 2147483647) :
    int32 x = x :=
  int32_of_inInt ⟨hlo, hhi⟩

/-- C remainder of a sum that is a natural number. -/
theorem tmod_eq_natCast
    {x y : Int} {a s : Nat}
    (hx : x = a)
    (hy : y = s) :
    x.tmod y = ((a % s : Nat) : Int) := by
  subst hx hy
  rfl

/-- A new ring holds nothing. -/
theorem ringqNew_holds
    {cap : Nat} {rq : Ringq} {mutexRet use_lock : Int}
    (hcap : CapInRange cap)
    (hnew : ringqNew true mutexRet cap use_lock = some rq) :
    Holds cap 0 rq [] := by
  unfold CapInRange at hcap
  simp only [ringqNew, if_true] at hnew
  split at hnew
  · cases hnew
  · simp only [Option.some.injEq] at hnew
    subst hnew
    constructor
    · rfl
    · omega
    · simp
    · rw [int32_of_range (by omega) (by omega)]
      push_cast
      rfl
    · simp only [Block.zeroed, lsz]
      omega
    · rfl
    · simp
    · trivial

section Push

variable {cap h : Nat} {rq : Ringq} {recs : List (List UInt8)}

/-- The free space both layouts of `ringq_push` compare with. -/
theorem Holds.free
    (hold : Holds cap h rq recs) :
    (pos (cap + 1) h (used recs) < h →
        h - pos (cap + 1) h (used recs) - 1 = cap - used recs) ∧
      (h ≤ pos (cap + 1) h (used recs) →
        cap + 1 - (pos (cap + 1) h (used recs) - h) - 1 = cap - used recs) := by
  have hle := hold.head_le
  have hroom := hold.room
  rcases pos_cases (i := used recs) (show h < cap + 1 by omega) (by omega)
    with hp | hp <;> omega

/-- A ring is full exactly when no cell of its capacity is free. -/
theorem ringqFull_iff
    (hcap : CapInRange cap)
    (hold : Holds cap h rq recs) :
    ringqFull rq = 0 ↔ used recs = cap := by
  unfold CapInRange at hcap
  have hle := hold.head_le
  have hroom := hold.room
  have ht : pos (cap + 1) h (used recs) < cap + 1 := pos_lt (by omega)
  have hnext : ringqFull rq = 0 ↔ pos (cap + 1) h (used recs + 1) = h := by
    unfold ringqFull
    rw [hold.tail, hold.head, int32_of_range (by omega) (by omega),
      tmod_eq_natCast (a := pos (cap + 1) h (used recs) + 1) (by push_cast; rfl)
        hold.size, ← pos_pos]
    by_cases heq : pos (cap + 1) (pos (cap + 1) h (used recs)) 1 = h
    · rw [if_pos (by exact_mod_cast heq)]
      exact iff_of_true rfl heq
    · rw [if_neg (by exact_mod_cast heq)]
      exact iff_of_false (by decide) heq
  rw [hnext]
  constructor
  · intro hpos
    rcases pos_cases (i := used recs + 1) (show h < cap + 1 by omega) (by omega)
      with hp | hp <;> omega
  · intro hused
    rw [hused]
    exact pos_size (by omega)

/-- The memory a successful push leaves: the record stands at the old tail and
no byte outside it has changed. -/
def PushedAt (cap t : Nat) (bs : List UInt8) (mem mem' : Block) : Prop :=
  mem'.size = mem.size ∧
    RecordAt 4 lengthHeader (cap + 1) mem' t bs ∧
    ∀ a, ¬ Cell 4 (cap + 1) t bs.length a → mem'.byte a = mem.byte a

/-- A copy whose ranges lie in their blocks. -/
theorem memcpy_natCast
    {dst src : Block} {d s n : Nat} {a b c : Int}
    (hd : a = d) (hs : b = s) (hn : c = n)
    (hsrc : s + n ≤ src.size)
    (hdst : d + n ≤ dst.size)
    (hbound : n ≤ 2147483647) :
    memcpy dst a src b c = .ok (dst.put d (src.window s n)) := by
  subst hd hs hn
  rw [memcpy, sizeT_natCast (by omega), Block.copy_natCast hsrc hdst]
  rfl

theorem window_take
    {b : Block} {a m n : Nat} (h : m ≤ n) :
    (b.window a n).take m = b.window a m := by
  apply List.ext_getElem
  · simp; omega
  · intro i hi hi'
    simp

theorem window_drop
    {b : Block} {a m n : Nat} :
    (b.window a n).drop m = b.window (a + m) (n - m) := by
  apply List.ext_getElem
  · simp
  · intro i hi hi'
    simp [Nat.add_assoc]

/-- Any layout of the record will do. -/
theorem pushedAt_of_stores
    {t : Nat} {mem mem' : Block} {bs : List UInt8}
    (ht : t < cap + 1)
    (hfit : 4 + bs.length ≤ cap)
    (h : Stores 4 lengthHeader (cap + 1) mem t bs mem') :
    PushedAt cap t bs mem mem' :=
  h.recordAt rfl ht (by omega)

/-- `ringq_push` with room for the record, in all its layouts. -/
theorem ringqPush_room
    {item : Block} {n : Nat}
    (hcap : CapInRange cap)
    (hold : Holds cap h rq recs)
    (hitem : n ≤ item.size)
    (hn : 4 + n ≤ cap - used recs) :
    ∃ mem',
      ringqPush rq item n =
        .ok (ringqPushed rq mem'
          (pos (cap + 1) (pos (cap + 1) h (used recs)) (4 + n) : Nat)) ∧
      Stores 4 lengthHeader (cap + 1) rq.mem (pos (cap + 1) h (used recs))
        (item.window 0 n) mem' := by
  have hfull : ringqFull rq ≠ 0 := by
    intro hf
    have := (ringqFull_iff hcap hold).mp hf
    omega
  unfold CapInRange at hcap
  have hle := hold.head_le
  have hroom := hold.room
  have hms := hold.mem_size
  have ht : pos (cap + 1) h (used recs) < cap + 1 := pos_lt (by omega)
  obtain ⟨hfreeLow, hfreeHigh⟩ := hold.free
  unfold ringqPush
  rw [if_neg hfull]
  simp only [hold.head, hold.tail, hold.size, lsz]
  generalize pos (cap + 1) h (used recs) = t at ht hfreeLow hfreeHigh ⊢
  have hhdr : rq.mem.store (t : Int) (intBytes (n : Int)) =
      some (rq.mem.put t (lengthHeader n)) :=
    Block.store_natCast (by simp only [intBytes_length]; omega)
  have hlen : (item.window 0 n).length = n := Block.window_length
  have hstraight :
      t + 4 + n ≤ cap + 1 →
      Stores 4 lengthHeader (cap + 1) rq.mem t (item.window 0 n)
        ((rq.mem.put t (lengthHeader n)).put (t + 4) (item.window 0 n)) := by
    intro hfit
    have hstores :
        Stores 4 lengthHeader (cap + 1) rq.mem t (item.window 0 n) _ :=
      .straight (by omega)
    rwa [hlen] at hstores
  have hcopy :
      t + 4 + n ≤ cap + 1 →
      memcpy (rq.mem.put t (lengthHeader n)) ((t : Int) + 4) item 0 n =
        .ok ((rq.mem.put t (lengthHeader n)).put (t + 4) (item.window 0 n)) := fun hfit =>
    memcpy_natCast (by omega) rfl rfl (by omega) (by rw [Block.put_size]; omega)
      (by omega)
  rw [hhdr]
  by_cases hht : h ≤ t
  · simp (disch := omega) only [int32_of_range, orFault, ok_bind]
    rw [if_pos (by omega), if_neg (by omega)]
    by_cases hm : 4 + n < cap + 1 - t
    · -- the record ends before the end of the ring
      rw [if_pos (by omega), hcopy (by omega), ok_bind,
        tmod_eq_natCast (a := t + (4 + n)) (by omega) rfl]
      exact ⟨_, rfl, hstraight (by omega)⟩
    · rw [if_neg (by omega)]
      by_cases hsplit : 4 < cap + 1 - t
      · -- the bytes are split at the end of the ring
        obtain ⟨m, hmt⟩ : ∃ m, t + 4 + m = cap + 1 :=
          ⟨cap + 1 - t - 4, by omega⟩
        rw [if_pos (by omega),
          memcpy_natCast (a := t + 4) (b := 0) (c := (cap + 1 : Nat) - t - 4)
            (d := t + 4) (s := 0) (n := m) (by omega) rfl
            (by omega) (by omega) (by rw [Block.put_size]; omega) (by omega),
          ok_bind,
          tmod_eq_natCast (a := cap + 1) (x := t + ((cap + 1 : Nat) - t))
            (by omega) rfl, Nat.mod_self]
        simp (disch := omega) only [int32_of_range]
        rw [memcpy_natCast (a := (0 : Nat)) (b := (cap + 1 : Nat) - t - 4)
            (c := n - ((cap + 1 : Nat) - t - 4)) (d := 0) (s := m) (n := n - m)
            rfl (by omega) (by omega) (by omega)
            (by simp only [Block.put_size]; omega) (by omega),
          ok_bind, tmod_eq_natCast (a := n - m) (by omega) rfl]
        have hpos : (n - m) % (cap + 1) = pos (cap + 1) t (4 + n) :=
          mod_eq_pos (by omega)
        have hstores :
            Stores 4 lengthHeader (cap + 1) rq.mem t (item.window 0 n) _ :=
          .split hmt (by omega)
        rw [hlen, window_take (by omega), window_drop, Nat.zero_add] at hstores
        exact ⟨_, by rw [hpos], hstores⟩
      · -- the length reaches the slack
        rw [if_neg (by omega), tmod_eq_natCast (a := t + 4) (by omega) rfl,
          show (t + 4) % (cap + 1) = t + 4 - (cap + 1) from
            pos_of_ge (by omega) (by omega)]
        simp (disch := omega) only [int32_of_range]
        rw [memcpy_natCast (a := (t + 4 - (cap + 1) : Nat)) (b := 0) (c := n)
            (d := t + 4 - (cap + 1)) (s := 0) (n := n) rfl rfl rfl (by omega)
            (by rw [Block.put_size]; omega) (by omega),
          ok_bind, tmod_eq_natCast (a := t + 4 - (cap + 1) + n) (by omega) rfl]
        have hpos : (t + 4 - (cap + 1) + n) % (cap + 1) = pos (cap + 1) t (4 + n) :=
          mod_eq_pos (by omega)
        have hstores :
            Stores 4 lengthHeader (cap + 1) rq.mem t (item.window 0 n) _ :=
          .straddle (by omega)
        rw [hlen] at hstores
        exact ⟨_, by rw [hpos], hstores⟩
  · simp (disch := omega) only [int32_of_range, orFault, ok_bind]
    rw [if_neg (by omega), if_neg (by omega), hcopy (by omega), ok_bind,
      tmod_eq_natCast (a := t + (4 + n)) (by omega) rfl]
    exact ⟨_, rfl, hstraight (by omega)⟩

/-- The invariant after a push with room. -/
theorem Holds.pushed
    {mem' : Block} {bs : List UInt8}
    (hcap : CapInRange cap)
    (hold : Holds cap h rq recs)
    (hroom : 4 + bs.length ≤ cap - used recs)
    (hmem : PushedAt cap (pos (cap + 1) h (used recs)) bs rq.mem mem') :
    Holds cap h
      (ringqPushed rq mem'
        (pos (cap + 1) (pos (cap + 1) h (used recs)) (4 + bs.length) : Nat)).2
      (recs ++ [bs]) := by
  obtain ⟨hsize, hrec, hframe⟩ := hmem
  have hle := hold.head_le
  have hlen : recs.length * 4 ≤ used recs := length_mul_le_spans
  have hused := hold.room
  unfold CapInRange at hcap
  constructor
  · exact hold.head
  · exact hle
  · rw [used_append_singleton]
    simp only [ringqPushed, pos_pos]
  · exact hold.size
  · exact hsize.trans hold.mem_size
  · simp only [ringqPushed, hold.num, List.length_append, List.length_singleton]
    rw [int32_of_range (by omega) (by omega)]
    push_cast
    rfl
  · rw [used_append_singleton]
    omega
  · have hfit : used recs + span 4 bs < cap + 1 := by
      unfold span
      omega
    exact hold.laid.append (by omega) hfit hrec hframe

/-- `ringq_push` without room: refused, and nothing changes. -/
theorem ringqPush_refused
    {n : Nat}
    (item : Block)
    (hcap : CapInRange cap)
    (hold : Holds cap h rq recs)
    (hn : InInt (4 + n))
    (hroom : ¬ 4 + n ≤ cap - used recs) :
    ringqPush rq item n = .ok (-1, rq) := by
  obtain ⟨-, hhi⟩ := hn
  unfold CapInRange at hcap
  have hle := hold.head_le
  have ht : pos (cap + 1) h (used recs) < cap + 1 := pos_lt (by omega)
  obtain ⟨hfreeLow, hfreeHigh⟩ := hold.free
  unfold ringqPush
  by_cases hfull : ringqFull rq = 0
  · rw [if_pos hfull]
  · rw [if_neg hfull]
    simp only [hold.head, hold.tail, hold.size, lsz]
    generalize pos (cap + 1) h (used recs) = t at ht hfreeLow hfreeHigh ⊢
    simp (disch := omega) only [int32_of_range]
    by_cases hht : h ≤ t
    · rw [if_pos (by omega), if_pos (by omega)]
    · rw [if_neg (by omega), if_pos (by omega)]

end Push

section Pop

variable {cap h : Nat} {rq : Ringq} {r : List UInt8} {rs : List (List UInt8)}

/-- `ringq_pop` on an empty ring. -/
theorem ringqPop_nil
    {item : Block} {n : Int}
    (hold : Holds cap h rq []) :
    ringqPop rq item n = .ok (-1, rq, item) := by
  have hle := hold.head_le
  have hempty : ringqEmpty rq = 0 := by
    unfold ringqEmpty
    rw [hold.tail, hold.head, used, spans_nil, pos_zero (by omega), if_pos rfl]
  rw [ringqPop, if_pos hempty]

/-- What a pop leaves in the destination: the record, and nothing else. -/
def PoppedInto (r : List UInt8) (item item' : Block) : Prop :=
  item'.size = item.size ∧ item'.window 0 r.length = r ∧
    ∀ a, r.length ≤ a → item'.byte a = item.byte a

/-- Delivery in one copy. -/
theorem poppedInto_put
    {item : Block} :
    PoppedInto r item (item.put 0 r) :=
  ⟨rfl, Block.window_put_self rfl, fun _ ha => Block.put_byte_outside (by omega)⟩

/-- Delivery in two copies. -/
theorem poppedInto_put_put
    {item : Block} {m : Nat} {as bs : List UInt8}
    (hm : as.length = m)
    (hr : as ++ bs = r) :
    PoppedInto r item ((item.put 0 as).put m bs) := by
  subst hr
  have hwin : ((item.put 0 as).put (0 + m) bs).window 0 (as ++ bs).length = as ++ bs :=
    Block.window_put_put hm (by simp [hm])
  rw [Nat.zero_add] at hwin
  refine ⟨rfl, hwin, ?_⟩
  intro a ha
  rw [List.length_append] at ha
  rw [Block.put_byte_outside (by omega), Block.put_byte_outside (by omega)]

/-- The bytes of a record of length `n` at `h` are split at the end of the ring. -/
def SplitAt (cap h n : Nat) : Prop := h + 4 < cap + 1 ∧ cap + 1 ≤ h + 4 + n

instance (cap h n : Nat) : Decidable (SplitAt cap h n) :=
  inferInstanceAs (Decidable (_ ∧ _))

/-- Where the bytes of a record at `h` start. -/
def dataAt (cap h : Nat) : Nat :=
  if h + 4 < cap + 1 then h + 4 else h + 4 - (cap + 1)

/-- What `ringq_pop` copies for a record of length `len` at `h`.  Only the copies
of a split record do not depend on `item_size`. -/
def popCopy (cap h len : Nat) (mem item : Block) (item_size : Int) :
    Except Stop Block :=
  if SplitAt cap h len then do
    let item ← memcpy item 0 mem (h + 4 : Nat) (cap + 1 - (h + 4) : Nat)
    memcpy item (cap + 1 - (h + 4) : Nat) mem 0 (len - (cap + 1 - (h + 4)) : Nat)
  else
    memcpy item 0 mem (dataAt cap h) item_size

/-- `ringq_pop` of the oldest record, in all its layouts. -/
theorem ringqPop_layout
    (item : Block) (n : Int)
    (hcap : CapInRange cap)
    (hold : Holds cap h rq (r :: rs)) :
    ringqPop rq item n =
      (popCopy cap h r.length rq.mem item n >>= fun item' =>
        .ok (ringqPopped rq item' (pos (cap + 1) h (4 + r.length) : Nat))) := by
  unfold CapInRange at hcap
  have hle := hold.head_le
  have hms := hold.mem_size
  have hroom := hold.room
  obtain ⟨hrec, -⟩ := hold.laid
  rw [used_cons] at hroom
  have ht := pos_cases (i := used (r :: rs)) (show h < cap + 1 by omega)
    (by rw [used_cons]; omega)
  have hne : ringqEmpty rq ≠ 0 := by
    unfold ringqEmpty
    rw [hold.tail, hold.head, if_neg]
    · decide
    · rw [used_cons] at ht ⊢
      omega
  have hload : rq.mem.load (h : Int) 4 = some (lengthHeader r.length) := by
    rw [Block.load_natCast (by omega), hrec.1]
  have hint : intOfBytes (lengthHeader r.length) = (r.length : Int) :=
    intOfBytes_intBytes ⟨by omega, by omega⟩
  have hstraight : h + 4 + r.length < cap + 1 →
      popCopy cap h r.length rq.mem item n = memcpy item 0 rq.mem ((h : Int) + 4) n := by
    intro hfit
    have hsplit : ¬ SplitAt cap h r.length := fun hs => by
      have := hs.2
      omega
    unfold popCopy dataAt
    rw [if_neg hsplit, if_pos (by omega)]
    rfl
  unfold ringqPop
  rw [if_neg hne]
  simp only [hold.head, hold.tail, hold.size, lsz, hload, orFault, ok_bind, hint]
  generalize pos (cap + 1) h (used (r :: rs)) = t at ht ⊢
  rw [used_cons] at ht
  by_cases hth : t ≤ h
  · simp (disch := omega) only [int32_of_range]
    rw [if_pos (by omega), if_neg (by omega)]
    by_cases hm : 4 + r.length < cap + 1 - h
    · -- the record ends before the end of the ring
      rw [if_pos (by omega), hstraight (by omega),
        tmod_eq_natCast (a := h + (4 + r.length)) (by omega) rfl]
      rfl
    · rw [if_neg (by omega)]
      by_cases hsplit : 4 < cap + 1 - h
      · -- the bytes are split at the end of the ring
        have hsplit' : SplitAt cap h r.length := ⟨by omega, by omega⟩
        have hfirst : ((cap + 1 : Nat) : Int) - h - 4 = (cap + 1 - (h + 4) : Nat) := by
          omega
        rw [if_pos (by omega),
          tmod_eq_natCast (a := cap + 1) (x := h + ((cap + 1 : Nat) - h))
            (by omega) rfl, Nat.mod_self]
        simp (disch := omega) only [int32_of_range]
        rw [tmod_eq_natCast (a := r.length - (cap + 1 - (h + 4))) (by omega) rfl,
          mod_eq_pos (p := h) (i := 4 + r.length) (by omega), hfirst,
          show (r.length : Int) - (cap + 1 - (h + 4) : Nat) =
            (r.length - (cap + 1 - (h + 4)) : Nat) by omega]
        unfold popCopy
        rw [if_pos hsplit', bind_assoc]
        rfl
      · -- the length reaches the slack
        have hsplit' : ¬ SplitAt cap h r.length := fun hs => by
          have := hs.1
          omega
        rw [if_neg (by omega), tmod_eq_natCast (a := h + 4) (by omega) rfl,
          show (h + 4) % (cap + 1) = h + 4 - (cap + 1) from
            pos_of_ge (by omega) (by omega)]
        simp (disch := omega) only [int32_of_range]
        rw [tmod_eq_natCast (a := h + 4 - (cap + 1) + r.length) (by omega) rfl,
          mod_eq_pos (p := h) (i := 4 + r.length) (by omega)]
        unfold popCopy dataAt
        rw [if_neg hsplit', if_neg (by omega)]
  · simp (disch := omega) only [int32_of_range]
    rw [if_neg (by omega), if_neg (by omega), hstraight (by omega),
      tmod_eq_natCast (a := h + (4 + r.length)) (by omega) rfl]
    rfl

/-- Delivery of the first `n` bytes of a record that is not split. -/
theorem popCopy_whole
    {mem item : Block} {n : Nat}
    (hrec : RecordAt 4 lengthHeader (cap + 1) mem h r)
    (hle : h ≤ cap)
    (hmem : mem.size = cap + 5)
    (hfit : 4 + r.length ≤ cap)
    (hbound : r.length ≤ 2147483647)
    (hsplit : ¬ SplitAt cap h r.length)
    (hn : n ≤ r.length)
    (hitem : n ≤ item.size) :
    popCopy cap h r.length mem item n = .ok (item.put 0 (r.take n)) := by
  have hsplit' := hsplit
  unfold SplitAt at hsplit'
  have hdata : dataAt cap h + r.length ≤ mem.size ∧
      mem.window (dataAt cap h) r.length = r := by
    unfold dataAt
    split
    · exact ⟨by omega, hrec.window_straight (by omega)⟩
    · exact ⟨by omega, hrec.window_straddle (by omega) (by omega) (by omega)⟩
  unfold popCopy
  rw [if_neg hsplit,
    memcpy_natCast (a := 0) (d := 0) (s := dataAt cap h) (n := n) rfl rfl rfl
      (by omega) (by omega) (by omega), ← window_take hn, hdata.2]

/-- Delivery of a split record: all of it. -/
theorem popCopy_split
    {mem item : Block} {n : Int}
    (hrec : RecordAt 4 lengthHeader (cap + 1) mem h r)
    (hmem : mem.size = cap + 5)
    (hfit : 4 + r.length ≤ cap)
    (hbound : r.length ≤ 2147483647)
    (hsplit : SplitAt cap h r.length)
    (hitem : r.length ≤ item.size) :
    ∃ as bs, as ++ bs = r ∧
      popCopy cap h r.length mem item n =
        .ok ((item.put 0 as).put as.length bs) := by
  obtain ⟨hlow, hhigh⟩ := id hsplit
  refine ⟨_, _, hrec.window_split (m := cap + 1 - (h + 4)) (by omega) (by omega)
    (by omega) (by omega), ?_⟩
  unfold popCopy
  rw [if_pos hsplit,
    memcpy_natCast (a := 0) (d := 0) (s := h + 4) (n := cap + 1 - (h + 4)) rfl rfl
      rfl (by omega) (by omega) (by omega), ok_bind,
    memcpy_natCast (b := 0) (d := cap + 1 - (h + 4)) (s := 0)
      (n := r.length - (cap + 1 - (h + 4))) rfl rfl rfl (by omega)
      (by rw [Block.put_size]; omega) (by omega), Block.window_length]

/-- `ringq_pop` of the oldest record into a destination of its length. -/
theorem ringqPop_cons
    (item : Block)
    (hcap : CapInRange cap)
    (hold : Holds cap h rq (r :: rs))
    (hitem : r.length ≤ item.size) :
    ∃ item',
      ringqPop rq item r.length =
        .ok (ringqPopped rq item' (pos (cap + 1) h (4 + r.length) : Nat)) ∧
      PoppedInto r item item' := by
  rw [ringqPop_layout item _ hcap hold]
  have hroom := hold.room
  rw [used_cons] at hroom
  unfold CapInRange at hcap
  have hrec := hold.laid.1
  by_cases hsplit : SplitAt cap h r.length
  · obtain ⟨as, bs, hr, hcopy⟩ := popCopy_split (n := r.length) hrec hold.mem_size
      (by omega) (by omega) hsplit hitem
    rw [hcopy]
    exact ⟨_, rfl, poppedInto_put_put rfl hr⟩
  · rw [popCopy_whole hrec hold.head_le hold.mem_size (by omega) (by omega) hsplit
      (le_refl _) hitem, List.take_length]
    exact ⟨_, rfl, poppedInto_put⟩

/-- The invariant after the oldest record was popped. -/
theorem Holds.popped
    (item' : Block)
    (hcap : CapInRange cap)
    (hold : Holds cap h rq (r :: rs)) :
    Holds cap (pos (cap + 1) h (4 + r.length))
      (ringqPopped rq item' (pos (cap + 1) h (4 + r.length) : Nat)).2.1 rs := by
  have hroom := hold.room
  have hlen : (r :: rs).length * 4 ≤ used (r :: rs) := length_mul_le_spans
  have ht : pos (cap + 1) h (4 + r.length) < cap + 1 := pos_lt (by omega)
  have htail := hold.tail
  have hnum := hold.num
  rw [used_cons] at hroom htail hlen
  rw [List.length_cons] at hlen hnum
  unfold CapInRange at hcap
  constructor
  · rfl
  · omega
  · simp only [ringqPopped, pos_pos]
    exact htail
  · exact hold.size
  · exact hold.mem_size
  · simp only [ringqPopped, hnum]
    rw [int32_of_range (by omega) (by omega)]
    omega
  · omega
  · exact hold.laid.2

end Pop

/-- Rings reached from `ringq_new(cap)` by pushes and pops, each with the
records the reference queue holds after the same calls.  A push names as many
bytes as its item has, and `4 + n` is an `int`; a pop asks for the length of
the oldest record. -/
inductive RingReach (cap : Nat) : Ringq → List (List UInt8) → Prop
  | new {rq : Ringq} (mutexRet use_lock : Int) :
      ringqNew true mutexRet cap use_lock = some rq →
      RingReach cap rq []
  | push {rq rq' : Ringq} {recs : List (List UInt8)}
      {item : Block} {n : Nat} {ret : Int} :
      RingReach cap rq recs →
      n ≤ item.size →
      InInt (4 + n) →
      ringqPush rq item n = .ok (ret, rq') →
      RingReach cap rq' (fifoPush cap recs (item.window 0 n)).2
  | pop {rq rq' : Ringq} {recs : List (List UInt8)}
      {item item' : Block} {n : Nat} {ret : Int} :
      RingReach cap rq recs →
      (∀ r rs, recs = r :: rs → n = r.length ∧ n ≤ item.size) →
      ringqPop rq item n = .ok (ret, rq', item') →
      RingReach cap rq' (fifoPop recs).2.2

/-- One push keeps the representation, whichever way it ends. -/
theorem Holds.push
    {cap h : Nat} {rq : Ringq} {recs : List (List UInt8)}
    {item : Block} {n : Nat}
    (hcap : CapInRange cap)
    (hold : Holds cap h rq recs)
    (hitem : n ≤ item.size)
    (hn : InInt (4 + n)) :
    ∃ rq',
      ringqPush rq item n = .ok ((fifoPush cap recs (item.window 0 n)).1, rq') ∧
        Holds cap h rq' (fifoPush cap recs (item.window 0 n)).2 ∧
        (¬ 4 + n ≤ cap - used recs → rq' = rq) := by
  unfold fifoPush
  rw [Block.window_length]
  by_cases hroom : 4 + n ≤ cap - used recs
  · obtain ⟨mem', hpush, hstores⟩ := ringqPush_room hcap hold hitem hroom
    rw [if_pos hroom]
    refine ⟨_, hpush, ?_, fun hno => absurd hroom hno⟩
    have hmem := pushedAt_of_stores (pos_lt (by omega))
      (by rw [Block.window_length]; omega) hstores
    have hpushed := hold.pushed hcap (by rw [Block.window_length]; exact hroom) hmem
    rwa [Block.window_length] at hpushed
  · rw [if_neg hroom]
    exact ⟨rq, ringqPush_refused item hcap hold hn hroom, hold, fun _ => rfl⟩

/-- Every ring reached represents the records of the reference queue. -/
theorem RingReach.holds
    {cap : Nat} {rq : Ringq} {recs : List (List UInt8)}
    (hcap : CapInRange cap)
    (hreach : RingReach cap rq recs) :
    ∃ h, Holds cap h rq recs := by
  induction hreach with
  | new _ _ hnew => exact ⟨0, ringqNew_holds hcap hnew⟩
  | push _ hitem hn hpush ih =>
      obtain ⟨h, hold⟩ := ih
      obtain ⟨rq'', hpush', hold', -⟩ := hold.push hcap hitem hn
      rw [hpush', Except.ok.injEq, Prod.mk.injEq] at hpush
      obtain ⟨-, rfl⟩ := hpush
      exact ⟨h, hold'⟩
  | @pop rq rq' recs item item' n ret _ hitem hpop ih =>
      obtain ⟨h, hold⟩ := ih
      cases recs with
      | nil =>
          rw [ringqPop_nil hold, Except.ok.injEq, Prod.mk.injEq, Prod.mk.injEq] at hpop
          obtain ⟨-, rfl, -⟩ := hpop
          exact ⟨h, hold⟩
      | cons r rs =>
          obtain ⟨rfl, hle⟩ := hitem r rs rfl
          obtain ⟨item'', hpop', -⟩ := ringqPop_cons item hcap hold hle
          rw [hpop', Except.ok.injEq] at hpop
          have hpopped := hold.popped item'' hcap
          rw [hpop] at hpopped
          exact ⟨_, hpopped⟩

/-- **The ring refines a bounded FIFO.**  In every ring reached, `num` counts
the pending records; a push answers as the reference queue does and changes
nothing when it is refused; a pop of an empty ring is refused and changes
nothing; any other pop delivers exactly the oldest record.  No call faults or
reaches the `err_exit`: each has a result. -/
theorem ringq_refines_fifo
    {cap : Nat} {rq : Ringq} {recs : List (List UInt8)}
    (hcap : CapInRange cap)
    (hreach : RingReach cap rq recs) :
    rq.num = recs.length ∧
      used recs ≤ cap ∧
      (∀ (item : Block) (n : Nat), n ≤ item.size → InInt (4 + n) →
        ∃ rq',
          ringqPush rq item n =
              .ok ((fifoPush cap recs (item.window 0 n)).1, rq') ∧
            RingReach cap rq' (fifoPush cap recs (item.window 0 n)).2 ∧
            (¬ 4 + n ≤ cap - used recs → rq' = rq)) ∧
      (recs = [] →
        ∀ (item : Block) (n : Int), ringqPop rq item n = .ok (-1, rq, item)) ∧
      (∀ r rs, recs = r :: rs →
        ∀ item : Block, r.length ≤ item.size →
          ∃ rq' item',
            ringqPop rq item r.length = .ok (0, rq', item') ∧
              PoppedInto r item item' ∧
              RingReach cap rq' rs) := by
  obtain ⟨h, hold⟩ := hreach.holds hcap
  refine ⟨hold.num, hold.room, ?_, ?_, ?_⟩
  · intro item n hitem hn
    obtain ⟨rq', hpush, -, hsame⟩ := hold.push hcap hitem hn
    exact ⟨rq', hpush, hreach.push hitem hn hpush, hsame⟩
  · rintro rfl item n
    exact ringqPop_nil hold
  · rintro r rs rfl item hitem
    obtain ⟨item', hpop, hdel⟩ := ringqPop_cons item hcap hold hitem
    refine ⟨_, item', hpop, hdel, ?_⟩
    refine hreach.pop (fun r' rs' he => ?_) hpop
    obtain ⟨rfl, rfl⟩ := List.cons.inj he
    exact ⟨rfl, hitem⟩

/-- A ring of ten bytes takes a record of six, which fills it exactly. -/
theorem ringq_refines_fifo_exact_fit :
    ∃ rq rq' : Ringq,
      RingReach 10 rq [] ∧
        ringqPush rq (Block.ofList [1, 2, 3, 4, 5, 6]) 6 = .ok (0, rq') ∧
        RingReach 10 rq' [[1, 2, 3, 4, 5, 6]] := by
  have hnew : RingReach 10 _ [] := .new 0 1 rfl
  obtain ⟨-, -, hpush, -⟩ := ringq_refines_fifo (by decide) hnew
  obtain ⟨rq', hrq', hreach, -⟩ :=
    hpush (Block.ofList [1, 2, 3, 4, 5, 6]) 6 (by decide) (by decide)
  exact ⟨_, rq', hnew, hrq', hreach⟩

end Ebot
