import Ebot.RingqFifo

/-!
# Sizes the callers of the ring queue pass

`ringq_push` and `ringq_pop` take an `int item_size`.  Callers of the server
always pass the size of a packet; here it is any `int`.

A push compares the free space with `4 + item_size`, a sum that wraps, and a
negative size is not refused as such.  A pop copies `item_size` bytes, except
that it copies the whole record when its bytes are split at the end of the ring.
-/

namespace Ebot

open Bytes Words Circular RecordRing

/-- Rings reached from `ringq_new(cap)` by pushes of any size and pops of at
most the oldest record, with the records pending in them.  The item of a push
has the bytes it names, the destination of a pop the room. -/
inductive RingServed (cap : Nat) : Ringq → List (List UInt8) → Prop
  | new {rq : Ringq} (mutexRet use_lock : Int) :
      ringqNew true mutexRet cap use_lock = some rq →
      RingServed cap rq []
  | push {rq rq' : Ringq} {recs : List (List UInt8)}
      {item : Block} {n ret : Int} :
      RingServed cap rq recs →
      InInt n →
      n ≤ item.size →
      ringqPush rq item n = .ok (ret, rq') →
      RingServed cap rq'
        (if ret = 0 then recs ++ [item.window 0 n.toNat] else recs)
  | pop {rq rq' : Ringq} {recs : List (List UInt8)}
      {item item' : Block} {n : Nat} {ret : Int} :
      RingServed cap rq recs →
      (∀ r rs, recs = r :: rs → n ≤ r.length ∧ n ≤ item.size) →
      ringqPop rq item n = .ok (ret, rq', item') →
      RingServed cap rq' recs.tail

/-- The sizes whose sum with the header is compared as it is: there is no room
at all, or the sum is an `int`, or the size is negative and still too large. -/
def ComparesRight (cap : Nat) (recs : List (List UInt8)) (n : Int) : Prop :=
  used recs = cap ∨ 0 ≤ n ∧ InInt (4 + n) ∨ n < 0 ∧ (cap - used recs : Nat) < 4 + n

instance (cap : Nat) (recs : List (List UInt8)) (n : Int) :
    Decidable (ComparesRight cap recs n) :=
  inferInstanceAs (Decidable (_ ∨ _))

/-- A copy that returns fits its destination. -/
theorem memcpy_fits
    {dst src b : Block} {d s n : Int}
    (h : memcpy dst d src s n = .ok b) :
    0 ≤ d ∧ d + sizeT n ≤ dst.size ∧ b.size = dst.size := by
  unfold memcpy Block.copy Block.load at h
  rw [orFault_eq_ok] at h
  split at h
  · rw [Option.bind_some] at h
    unfold Block.store at h
    split at h
    · rename_i hin
      rw [Block.window_length] at hin
      cases h
      exact ⟨hin.1, hin.2, rfl⟩
    · cases h
  · cases h

/-- A copy of more bytes than the destination has. -/
theorem memcpy_fault
    {dst src : Block} {d s n : Int}
    (h : dst.size < sizeT n) :
    memcpy dst d src s n = .error .fault := by
  cases hcopy : dst.copy d src s (sizeT n) with
  | none =>
      unfold memcpy
      rw [hcopy]
      rfl
  | some b =>
      obtain ⟨hpos, hfits, -⟩ := memcpy_fits (orFault_eq_ok.mpr hcopy)
      omega

section Push

variable {cap h : Nat} {rq : Ringq} {recs : List (List UInt8)} {item : Block} {n : Int}

/-- The sum with the header that a push computes for a size that is negative or
too large. -/
theorem int32_msize
    (hn : InInt n)
    (hodd : n < 0 ∨ ¬ InInt (4 + n)) :
    int32 (lsz + n) ≤ 3 ∧ (n < 0 → int32 (lsz + n) = 4 + n) ∧
      (¬ n < 0 → int32 (lsz + n) < 0) := by
  obtain ⟨hlo, hhi⟩ := hn
  have hneg : n < 0 → int32 (lsz + n) = 4 + n := fun _ =>
    int32_of_range (by unfold lsz; omega) (by unfold lsz; omega)
  have hpos : ¬ n < 0 → int32 (lsz + n) < 0 := by
    intro h0
    have hbig : 2147483643 < n := by
      by_contra hle
      exact hodd.elim (fun h => h0 h) fun h => h ⟨by omega, by omega⟩
    have hwrap : int32 (lsz + n) = lsz + n - 4294967296 :=
      int32_of_above (by unfold lsz; omega) (by unfold lsz; omega)
    unfold lsz at *
    omega
  refine ⟨?_, hneg, hpos⟩
  by_cases h0 : n < 0
  · rw [hneg h0]
    omega
  · have := hpos h0
    omega

/-- A size that is negative or too large, and passes the comparison: the copy of
that many bytes leaves the block. -/
theorem ringqPush_bypassed
    (hcap : CapInRange cap)
    (hold : Holds cap h rq recs)
    (hn : InInt n)
    (hodd : n < 0 ∨ ¬ InInt (4 + n))
    (hroom : used recs ≠ cap)
    (hpass : int32 (lsz + n) ≤ (cap - used recs : Nat)) :
    ringqPush rq item n = .error .fault := by
  have hfull : ringqFull rq ≠ 0 := fun hf =>
    hroom ((ringqFull_iff hcap hold).mp hf)
  obtain ⟨hsmall, -, -⟩ := int32_msize hn hodd
  unfold CapInRange at hcap
  have hle := hold.head_le
  have hms := hold.mem_size
  have ht : pos (cap + 1) h (used recs) < cap + 1 := pos_lt (by omega)
  obtain ⟨hfreeLow, hfreeHigh⟩ := hold.free
  have hhuge : cap + 5 < sizeT n := by
    obtain ⟨hlo, hhi⟩ := hn
    unfold InInt at hodd
    unfold sizeT
    omega
  unfold ringqPush
  rw [if_neg hfull]
  simp only [hold.head, hold.tail, hold.size]
  generalize pos (cap + 1) h (used recs) = t at ht hfreeLow hfreeHigh ⊢
  have hhdr : rq.mem.store (t : Int) (intBytes n) = some (rq.mem.put t (intBytes n)) :=
    Block.store_natCast (by simp only [intBytes_length]; omega)
  have hfault : ∀ {d : Int}, memcpy (rq.mem.put t (intBytes n)) d item 0 n = .error .fault :=
    memcpy_fault (by rw [Block.put_size]; omega)
  generalize int32 (lsz + n) = msize at hsmall hpass ⊢
  rw [hhdr]
  by_cases hht : h ≤ t
  · simp (disch := omega) only [int32_of_range, orFault, ok_bind]
    rw [if_pos (by omega), if_neg (by omega)]
    by_cases hm : msize < ((cap + 1 : Nat) : Int) - t
    · rw [if_pos hm, hfault]
      rfl
    · -- so few cells are left that the length reaches the slack
      rw [if_neg hm, if_neg (by unfold lsz; omega), hfault]
      rfl
  · simp (disch := omega) only [int32_of_range, orFault, ok_bind]
    rw [if_neg (by omega), if_neg (by omega), hfault]
    rfl

/-- A negative size that is still too large is refused. -/
theorem ringqPush_negative
    (hcap : CapInRange cap)
    (hold : Holds cap h rq recs)
    (hn : InInt n)
    (hneg : n < 0)
    (hlarge : (cap - used recs : Nat) < 4 + n) :
    ringqPush rq item n = .ok (-1, rq) := by
  obtain ⟨-, hsum, -⟩ := int32_msize hn (.inl hneg)
  unfold CapInRange at hcap
  have hle := hold.head_le
  have ht : pos (cap + 1) h (used recs) < cap + 1 := pos_lt (by omega)
  obtain ⟨hfreeLow, hfreeHigh⟩ := hold.free
  unfold ringqPush
  by_cases hfull : ringqFull rq = 0
  · rw [if_pos hfull]
  · rw [if_neg hfull]
    simp only [hold.head, hold.tail, hold.size, hsum hneg]
    generalize pos (cap + 1) h (used recs) = t at ht hfreeLow hfreeHigh ⊢
    simp (disch := omega) only [int32_of_range]
    by_cases hht : h ≤ t
    · rw [if_pos (by omega), if_pos (by omega)]
    · rw [if_neg (by omega), if_pos (by omega)]

/-- **Push of any size.**  Where the comparison is right it takes a record that
fits or changes nothing; elsewhere it has no result. -/
theorem Holds.push_any
    (hcap : CapInRange cap)
    (hold : Holds cap h rq recs)
    (hn : InInt n)
    (hitem : n ≤ item.size) :
    (ComparesRight cap recs n →
      (∃ rq', ringqPush rq item n = .ok (0, rq') ∧ 0 ≤ n ∧
        4 + n ≤ (cap - used recs : Nat) ∧
        Holds cap h rq' (recs ++ [item.window 0 n.toNat])) ∨
      ringqPush rq item n = .ok (-1, rq)) ∧
    (¬ ComparesRight cap recs n → ringqPush rq item n = .error .fault) := by
  constructor
  · rintro (hused | ⟨h0, hsum⟩ | ⟨hneg, hlarge⟩)
    · right
      unfold ringqPush
      rw [if_pos ((ringqFull_iff hcap hold).mpr hused)]
    · obtain ⟨k, rfl⟩ := Int.eq_ofNat_of_zero_le h0
      have hfits : k ≤ item.size := by omega
      obtain ⟨rq', hpush, hold', hsame⟩ := hold.push hcap hfits hsum
      unfold fifoPush at hpush hold'
      rw [Block.window_length] at hpush hold'
      by_cases hroom : 4 + k ≤ cap - used recs
      · rw [if_pos hroom] at hpush hold'
        exact .inl ⟨rq', hpush, h0, by omega, hold'⟩
      · rw [if_neg hroom] at hpush
        rw [hsame hroom] at hpush
        exact .inr hpush
    · exact .inr (ringqPush_negative hcap hold hn hneg hlarge)
  · intro hwrong
    unfold ComparesRight at hwrong
    have hodd : n < 0 ∨ ¬ InInt (4 + n) := by
      by_contra hno
      exact hwrong (.inr (.inl ⟨by omega, by_contra fun hs => hno (.inr hs)⟩))
    obtain ⟨-, hneg, hpos⟩ := int32_msize hn hodd
    refine ringqPush_bypassed hcap hold hn hodd (fun hused => hwrong (.inl hused)) ?_
    by_cases h0 : n < 0
    · rw [hneg h0]
      by_contra hlarge
      exact hwrong (.inr (.inr ⟨h0, by omega⟩))
    · have := hpos h0
      omega

end Push

/-- Every ring reached represents the records pending in it. -/
theorem RingServed.holds
    {cap : Nat} {rq : Ringq} {recs : List (List UInt8)}
    (hcap : CapInRange cap)
    (hserved : RingServed cap rq recs) :
    ∃ h, Holds cap h rq recs := by
  induction hserved with
  | new _ _ hnew => exact ⟨0, ringqNew_holds hcap hnew⟩
  | @push rq rq' recs item n ret _ hn hitem hpush ih =>
      obtain ⟨h, hold⟩ := ih
      obtain ⟨hright, hwrong⟩ := hold.push_any hcap hn hitem
      by_cases hcmp : ComparesRight cap recs n
      · rcases hright hcmp with ⟨rq'', hpush', -, -, hold'⟩ | hpush'
        · rw [hpush'] at hpush
          cases hpush
          exact ⟨h, hold'⟩
        · rw [hpush'] at hpush
          cases hpush
          exact ⟨h, hold⟩
      · rw [hwrong hcmp] at hpush
        cases hpush
  | @pop rq rq' recs item item' n ret _ hn hpop ih =>
      obtain ⟨h, hold⟩ := ih
      cases recs with
      | nil =>
          rw [ringqPop_nil hold] at hpop
          cases hpop
          exact ⟨h, hold⟩
      | cons r rs =>
          rw [ringqPop_layout item n hcap hold] at hpop
          obtain ⟨item'', -, hpop⟩ := bind_eq_ok.mp hpop
          have hpopped := hold.popped item'' hcap
          rw [Except.ok.inj hpop] at hpopped
          exact ⟨_, hpopped⟩

/-- The rings of the reference queue are among them. -/
theorem RingReach.served
    {cap : Nat} {rq : Ringq} {recs : List (List UInt8)}
    (hcap : CapInRange cap)
    (hreach : RingReach cap rq recs) :
    RingServed cap rq recs := by
  induction hreach with
  | new mutexRet use_lock hnew => exact .new mutexRet use_lock hnew
  | @push rq rq' recs item n ret hreach hitem hn hpush ih =>
      obtain ⟨h, hold⟩ := hreach.holds hcap
      obtain ⟨rq'', hpush', -⟩ := hold.push hcap hitem hn
      have hret := hpush.symm.trans hpush'
      have hserved := ih.push (n := n) ⟨by omega, by have := hn.2; omega⟩ (by omega) hpush
      cases hret
      unfold fifoPush at hserved ⊢
      split
      · rename_i hroom
        rwa [if_pos hroom, if_pos rfl, Int.toNat_natCast] at hserved
      · rename_i hroom
        rwa [if_neg hroom, if_neg (by simp)] at hserved
  | @pop rq rq' recs item item' n ret _ hitem hpop ih =>
      have hserved := ih.pop (fun r rs hrs => ?_) hpop
      · cases recs <;> exact hserved
      · obtain ⟨rfl, hle⟩ := hitem r rs hrs
        exact ⟨le_refl _, hle⟩

/-! ## Admission -/

/-- What the admission test of `ringq_push` is for: a size is taken only when it
is one and fits, and otherwise the push returns -1 and changes nothing. -/
def AdmitsFitting (cap : Nat) (recs : List (List UInt8)) (rq : Ringq) (item : Block)
    (n : Int) : Prop :=
  ∃ ret rq', ringqPush rq item n = .ok (ret, rq') ∧
    (ret = 0 ∧ 0 ≤ n ∧ 4 + n ≤ (cap - used recs : Nat) ∨ ret = -1 ∧ rq' = rq)

/-- **Push admission.**  For every ring reached and every `int` size the test
does what it is for exactly when it compares the sum as it is. -/
theorem push_admission_iff
    {cap : Nat} {rq : Ringq} {recs : List (List UInt8)} {item : Block} {n : Int}
    (hcap : CapInRange cap)
    (hserved : RingServed cap rq recs)
    (hn : InInt n)
    (hitem : n ≤ item.size) :
    AdmitsFitting cap recs rq item n ↔ ComparesRight cap recs n := by
  obtain ⟨h, hold⟩ := hserved.holds hcap
  obtain ⟨hright, hwrong⟩ := hold.push_any hcap hn hitem
  constructor
  · rintro ⟨ret, rq', hpush, -⟩
    by_contra hcmp
    rw [hwrong hcmp] at hpush
    cases hpush
  · intro hcmp
    rcases hright hcmp with ⟨rq', hpush, h0, hfits, -⟩ | hpush
    · exact ⟨0, rq', hpush, .inl ⟨rfl, h0, hfits⟩⟩
    · exact ⟨-1, rq, hpush, .inr ⟨rfl, rfl⟩⟩

/-- A new ring of one byte refuses the size -1, whose sum is larger than that. -/
theorem push_admission_iff_one :
    ∃ rq : Ringq, RingServed 1 rq [] ∧ AdmitsFitting 1 [] rq (Block.ofList []) (-1) := by
  have hnew : RingServed 1 _ [] := .new 0 1 rfl
  exact ⟨_, hnew, (push_admission_iff (by decide) hnew (by decide) (by decide)).mpr
    (by decide)⟩

/-- A new ring of ten bytes takes the size -1. -/
theorem not_push_admission :
    ¬ ∀ (cap : Nat) (rq : Ringq) (recs : List (List UInt8)) (item : Block) (n : Int),
      CapInRange cap → RingServed cap rq recs → InInt n → n ≤ item.size →
      AdmitsFitting cap recs rq item n := by
  intro hall
  have hnew : RingServed 10 _ [] := .new 0 1 rfl
  obtain ⟨h, hold⟩ := hnew.holds (by decide)
  obtain ⟨ret, rq', hpush, -⟩ :=
    hall 10 _ [] (Block.ofList []) (-1) (by decide) hnew (by decide) (by decide)
  rw [(hold.push_any (by decide) (by decide) (by decide)).2 (by decide)] at hpush
  cases hpush

/-! ## Destinations shorter than the record -/

/-- A byte that one of these writes touched. -/
def Touches (ws : List (Nat × Nat)) (a : Nat) : Prop :=
  ∃ w ∈ ws, w.1 ≤ a ∧ a < w.1 + w.2

/-- What a pop of `rq` into the first `n` bytes of a destination should do: it
returns 0, writes the first `n` bytes of the oldest record and nothing behind
them, and leaves the other records. -/
structure PopsInto (cap : Nat) (r : List UInt8) (rs : List (List UInt8)) (item : Block)
    (n : Nat) (o : Int × Ringq × Block) : Prop where
  ret : o.1 = 0
  touched : ∃ ws, o.2.2.written = item.written ++ ws ∧ ∀ a, Touches ws a ↔ a < n
  bytes : ∀ a, o.2.2.byte a = if a < n then r.getD a 0 else item.byte a
  left : ∃ h, Holds cap h o.2.1 rs

section Pop

variable {cap h : Nat} {rq : Ringq} {r : List UInt8} {rs : List (List UInt8)}
  {item : Block} {n : Nat}

/-- A pop that copies in one piece, or asks for the whole record. -/
theorem Holds.pop_short
    (hcap : CapInRange cap)
    (hold : Holds cap h rq (r :: rs))
    (hn : n ≤ r.length)
    (hitem : n ≤ item.size)
    (hwhole : n = r.length ∨ ¬ SplitAt cap h r.length) :
    ∃ o, ringqPop rq item n = .ok o ∧ PopsInto cap r rs item n o := by
  have hroom := hold.room
  rw [used_cons] at hroom
  have hcap' := hcap
  unfold CapInRange at hcap'
  rw [ringqPop_layout item n hcap hold]
  by_cases hsplit : SplitAt cap h r.length
  · obtain rfl : n = r.length := hwhole.resolve_right (not_not_intro hsplit)
    obtain ⟨as, bs, rfl, hcopy⟩ := popCopy_split (n := r.length) hold.laid.1 hold.mem_size
      (by omega) (by omega) hsplit hitem
    rw [hcopy, ok_bind]
    refine ⟨_, rfl, rfl, ⟨[(0, as.length), (as.length, bs.length)],
      by simp [ringqPopped, Block.put], ?_⟩, ?_, _, hold.popped _ hcap⟩
    · intro a
      simp only [Touches, List.mem_cons, List.not_mem_nil, or_false, exists_eq_or_imp,
        exists_eq_left, List.length_append]
      omega
    · intro a
      simp only [ringqPopped, Block.put, List.length_append]
      by_cases hfirst : a < as.length
      · rw [if_neg (by omega), if_pos (by omega), if_pos (by omega),
          List.getD_append _ _ _ _ hfirst, Nat.sub_zero]
      · by_cases hsecond : a < as.length + bs.length
        · rw [if_pos (by omega), if_pos hsecond,
            List.getD_append_right _ _ _ _ (by omega)]
        · rw [if_neg (by omega), if_neg (by omega), if_neg hsecond]
  · rw [popCopy_whole hold.laid.1 hold.head_le hold.mem_size (by omega) (by omega) hsplit
      hn hitem, ok_bind]
    have hlen : (r.take n).length = n := by simp [hn]
    refine ⟨_, rfl, rfl, ⟨[(0, n)], by simp [ringqPopped, Block.put, hn], ?_⟩, ?_,
      _, hold.popped _ hcap⟩
    · intro a
      simp [Touches]
    · intro a
      by_cases ha : a < n
      · rw [if_pos ha]
        have hbyte : (item.put 0 (r.take n)).byte (0 + a) = (r.take n).getD a 0 :=
          Block.put_byte_inside (by omega)
        rw [Nat.zero_add] at hbyte
        refine hbyte.trans ?_
        simp only [List.getD_eq_getElem?_getD, List.getElem?_take, if_pos ha]
      · rw [if_neg ha]
        exact Block.put_byte_outside (by omega)

/-- A pop of a split record that asks for less writes past what it asks for. -/
theorem Holds.pop_split
    {o : Int × Ringq × Block} {ws : List (Nat × Nat)}
    (hcap : CapInRange cap)
    (hold : Holds cap h rq (r :: rs))
    (hsplit : SplitAt cap h r.length)
    (hlt : n < r.length)
    (hpop : ringqPop rq item n = .ok o)
    (hws : o.2.2.written = item.written ++ ws) :
    Touches ws n := by
  have hroom := hold.room
  rw [used_cons] at hroom
  have hcap' := hcap
  unfold CapInRange at hcap'
  rw [ringqPop_layout item n hcap hold] at hpop
  obtain ⟨item', hcopy, hpop⟩ := bind_eq_ok.mp hpop
  have hitem : r.length ≤ item.size := by
    have hcopy' := hcopy
    obtain ⟨hlow, hhigh⟩ := hsplit
    unfold popCopy at hcopy'
    rw [if_pos ⟨hlow, hhigh⟩] at hcopy'
    obtain ⟨item₁, hfirst, hsecond⟩ := bind_eq_ok.mp hcopy'
    have hfits := (memcpy_fits hsecond).2.1
    rw [(memcpy_fits hfirst).2.2, sizeT_natCast (by omega)] at hfits
    omega
  obtain ⟨as, bs, rfl, hboth⟩ := popCopy_split (n := n) hold.laid.1 hold.mem_size
    (by omega) (by omega) hsplit hitem
  rw [hboth] at hcopy
  cases hcopy
  cases hpop
  have hws' : ws = [(0, as.length), (as.length, bs.length)] := by
    simpa [ringqPopped, Block.put] using hws.symm
  rw [List.length_append] at hlt
  subst hws'
  simp only [Touches, List.mem_cons, List.not_mem_nil, or_false, exists_eq_or_imp,
    exists_eq_left]
  omega

end Pop

/-- What two rings with the same records should do alike: the pops return the
same code, write the same bytes of the destination and none at or behind `n`,
and leave the same records. -/
def PopAlike (cap : Nat) (rq₁ rq₂ : Ringq) (rs : List (List UInt8)) (item : Block)
    (n : Nat) : Prop :=
  ∃ ret rq₁' rq₂' item₁ item₂ ws₁ ws₂,
    ringqPop rq₁ item n = .ok (ret, rq₁', item₁) ∧
    ringqPop rq₂ item n = .ok (ret, rq₂', item₂) ∧
    item₁.written = item.written ++ ws₁ ∧ item₂.written = item.written ++ ws₂ ∧
    (∀ a, Touches ws₁ a ↔ Touches ws₂ a) ∧ (∀ a, item₁.byte a = item₂.byte a) ∧
    (∀ a, Touches ws₁ a → a < n) ∧
    RingServed cap rq₁' rs ∧ RingServed cap rq₂' rs

/-- Two pops that are alike and ask for less than the record meet no split. -/
theorem PopAlike.not_splitAt
    {cap a₁ a₂ : Nat} {rq₁ rq₂ : Ringq} {r : List UInt8} {rs : List (List UInt8)}
    {item : Block} {n : Nat}
    (hcap : CapInRange cap)
    (hold₁ : Holds cap a₁ rq₁ (r :: rs))
    (hold₂ : Holds cap a₂ rq₂ (r :: rs))
    (hlt : n < r.length)
    (h : PopAlike cap rq₁ rq₂ rs item n) :
    ¬ SplitAt cap a₁ r.length ∧ ¬ SplitAt cap a₂ r.length := by
  obtain ⟨ret, rq₁', rq₂', item₁, item₂, ws₁, ws₂, hpop₁, hpop₂, hws₁, hws₂, htouch, -,
    hbound, -, -⟩ := h
  constructor
  · intro hsplit
    exact lt_irrefl n (hbound n (hold₁.pop_split hcap hsplit hlt hpop₁ hws₁))
  · intro hsplit
    have htouched := hold₂.pop_split hcap hsplit hlt hpop₂ hws₂
    exact lt_irrefl n (hbound n ((htouch n).mpr htouched))

/-- **Pop and the destination size.**  Two rings with the same records pop alike
exactly when the whole oldest record is asked for, or it is split in neither. -/
theorem pop_alike_iff
    {cap : Nat} {rq₁ rq₂ : Ringq} {r : List UInt8} {rs : List (List UInt8)}
    {item : Block} {n : Nat}
    (hcap : CapInRange cap)
    (h₁ : RingServed cap rq₁ (r :: rs))
    (h₂ : RingServed cap rq₂ (r :: rs))
    (hn : n ≤ r.length)
    (hitem : n ≤ item.size) :
    PopAlike cap rq₁ rq₂ rs item n ↔
      n = r.length ∨ ¬ SplitAt cap rq₁.head.toNat r.length ∧
        ¬ SplitAt cap rq₂.head.toNat r.length := by
  obtain ⟨a₁, hold₁⟩ := h₁.holds hcap
  obtain ⟨a₂, hold₂⟩ := h₂.holds hcap
  rw [hold₁.head, hold₂.head, Int.toNat_natCast, Int.toNat_natCast]
  constructor
  · intro halike
    rcases Nat.lt_or_eq_of_le hn with hlt | heq
    · exact .inr (halike.not_splitAt hcap hold₁ hold₂ hlt)
    · exact .inl heq
  · intro hwhole
    have hserved : ∀ {rq o}, RingServed cap rq (r :: rs) → ringqPop rq item n = .ok o →
        RingServed cap o.2.1 rs := by
      intro rq o hserved hpop
      refine hserved.pop ?_ hpop
      rintro r' rs' hrs
      obtain ⟨rfl, -⟩ := List.cons.inj hrs
      exact ⟨hn, hitem⟩
    obtain ⟨⟨ret₁, rq₁', item₁⟩, hpop₁, hinto₁⟩ :=
      hold₁.pop_short hcap hn hitem (hwhole.imp_right And.left)
    obtain ⟨⟨ret₂, rq₂', item₂⟩, hpop₂, hinto₂⟩ :=
      hold₂.pop_short hcap hn hitem (hwhole.imp_right And.right)
    obtain ⟨rfl, ⟨ws₁, hws₁, htouch₁⟩, hbytes₁, -⟩ := hinto₁
    obtain ⟨rfl, ⟨ws₂, hws₂, htouch₂⟩, hbytes₂, -⟩ := hinto₂
    refine ⟨_, rq₁', rq₂', item₁, item₂, ws₁, ws₂, hpop₁, hpop₂, hws₁, hws₂, ?_, ?_, ?_,
      hserved h₁ hpop₁, hserved h₂ hpop₂⟩
    · intro a
      rw [htouch₁, htouch₂]
    · intro a
      exact (hbytes₁ a).trans (hbytes₂ a).symm
    · intro a
      exact (htouch₁ a).mp

section Twenty

variable {cap h : Nat} {rq : Ringq} {r : List UInt8} {rs : List (List UInt8)}

/-- One more record that fits. -/
theorem RingServed.add
    (bs : List UInt8)
    (hcap : CapInRange cap)
    (hserved : RingServed cap rq rs)
    (hold : Holds cap h rq rs)
    (hroom : 4 + bs.length ≤ cap - used rs) :
    ∃ rq', RingServed cap rq' (rs ++ [bs]) ∧ Holds cap h rq' (rs ++ [bs]) := by
  have hcap' := hcap
  unfold CapInRange at hcap'
  have hitem : bs.length ≤ (Block.ofList bs).size := le_refl _
  obtain ⟨rq', hpush, hold', -⟩ := hold.push hcap hitem ⟨by omega, by omega⟩
  unfold fifoPush at hpush hold'
  rw [Block.window_ofList, if_pos hroom] at hpush hold'
  have hserved' := hserved.push ⟨by omega, by omega⟩ (by simp) hpush
  rw [if_pos rfl, Int.toNat_natCast, Block.window_ofList] at hserved'
  exact ⟨rq', hserved', hold'⟩

/-- The oldest record is popped. -/
theorem RingServed.drop
    (hcap : CapInRange cap)
    (hserved : RingServed cap rq (r :: rs))
    (hold : Holds cap h rq (r :: rs)) :
    ∃ rq', RingServed cap rq' rs ∧ Holds cap (pos (cap + 1) h (4 + r.length)) rq' rs := by
  obtain ⟨item', hpop, -⟩ := ringqPop_cons (Block.ofList r) hcap hold (le_refl _)
  refine ⟨_, hserved.pop ?_ hpop, hold.popped item' hcap⟩
  rintro r' rs' hrs
  obtain ⟨rfl, -⟩ := List.cons.inj hrs
  exact ⟨le_refl _, le_refl _⟩

/-- Ten bytes, and six that go through the ring before them. -/
def tenBytes : List UInt8 := [1, 2, 3, 4, 5, 6, 7, 8, 9, 10]

def sixBytes : List UInt8 := [11, 12, 13, 14, 15, 16]

/-- Two rings of twenty bytes that hold the same ten: from the start on, and
from the tenth cell on. -/
theorem ringServed_twenty :
    ∃ rq₁ rq₂ : Ringq,
      RingServed 20 rq₁ [tenBytes] ∧ Holds 20 0 rq₁ [tenBytes] ∧
        RingServed 20 rq₂ [tenBytes] ∧ Holds 20 10 rq₂ [tenBytes] := by
  have hcap : CapInRange 20 := by decide
  obtain ⟨rq₀, hrq₀⟩ : ∃ rq, ringqNew true 0 (20 : Nat) 1 = some rq := ⟨_, rfl⟩
  have hnew : RingServed 20 rq₀ [] := .new 0 1 hrq₀
  have hold : Holds 20 0 rq₀ [] := ringqNew_holds hcap hrq₀
  obtain ⟨rq₁, h₁, hold₁⟩ := hnew.add tenBytes hcap hold (by decide)
  obtain ⟨rq, h, hold'⟩ := hnew.add sixBytes hcap hold (by decide)
  obtain ⟨rq', h', hold''⟩ := h.drop hcap hold'
  obtain ⟨rq₂, h₂, hold₂⟩ := h'.add tenBytes hcap hold'' (by decide)
  exact ⟨rq₁, rq₂, h₁, hold₁, h₂, hold₂⟩

end Twenty

/-- Both rings deliver all ten bytes. -/
theorem pop_alike_iff_twenty :
    ∃ rq₁ rq₂ : Ringq, rq₁.head ≠ rq₂.head ∧
      PopAlike 20 rq₁ rq₂ [] (Block.zeroed 16) tenBytes.length := by
  obtain ⟨rq₁, rq₂, h₁, hold₁, h₂, hold₂⟩ := ringServed_twenty
  refine ⟨rq₁, rq₂, ?_, ?_⟩
  · rw [hold₁.head, hold₂.head]
    decide
  · exact (pop_alike_iff (by decide) h₁ h₂ (le_refl _) (by decide)).mpr (.inl rfl)

/-- Asked for four of the ten bytes, the ring that splits them writes all ten. -/
theorem not_pop_alike :
    ¬ ∀ (cap : Nat) (rq₁ rq₂ : Ringq) (r : List UInt8) (rs : List (List UInt8))
      (item : Block) (n : Nat), CapInRange cap → RingServed cap rq₁ (r :: rs) →
      RingServed cap rq₂ (r :: rs) → rq₁.head ≠ rq₂.head → n ≤ r.length →
      n ≤ item.size → PopAlike cap rq₁ rq₂ rs item n := by
  intro hall
  have hcap : CapInRange 20 := by decide
  obtain ⟨rq₁, rq₂, h₁, hold₁, h₂, hold₂⟩ := ringServed_twenty
  have hne : rq₁.head ≠ rq₂.head := by
    rw [hold₁.head, hold₂.head]
    decide
  have halike := hall 20 rq₁ rq₂ tenBytes [] (Block.zeroed 16) 4 hcap h₁ h₂ hne
    (by decide) (by decide)
  exact (halike.not_splitAt hcap hold₁ hold₂ (by decide)).2 (by decide)

end Ebot
