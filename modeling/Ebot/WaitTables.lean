import Ebot.EventTables
import Ebot.Library.Transition

/-!
# The wait tables over runs of calls

An event base driven by `ebot_add_event` and `ebot_del_event` in any order.
As long as a call stays inside both tables it is one equation
(`ebotAddEvent_eq`, `ebotDelEvent_eq`); `InterestSet` and the server use these
as well.

`ebot_add_event` reads both tables before it looks whether they must grow, and
growth clears them from `epsz` up although only the part from `wait_sz` up is
new.
-/

namespace Ebot

open Function Transition

variable {κ α : Type}

/-- The other direction. -/
def Dir.other : Dir → Dir
  | .read => .write
  | .write => .read

@[simp] theorem Dir.other_ne
    (d : Dir) :
    d.other ≠ d := by
  cases d <;> simp [Dir.other]

@[simp] theorem Dir.other_other
    (d : Dir) :
    d.other.other = d := by
  cases d <;> simp [Dir.other]

section Slots

variable {b : Slots} {i : Nat} {p : Option Nat} {stale : Option (Option Nat)}

/-- The element is in the block, and the block is allocated. -/
def Slots.Has (b : Slots) (i : Nat) : Prop := b.live = true ∧ i < b.size

/-- The block after the write of an element, made only under a condition. -/
def Slots.written (b : Slots) (c : Bool) (i : Nat) (p : Option Nat) : Slots :=
  { b with slot := if c then update b.slot i p else b.slot }

theorem Slots.Has.peek
    (h : b.Has i) :
    b.peek stale i = .ok (b.slot i) := by
  unfold Slots.peek
  rw [if_pos h.1, if_pos h.2]

theorem Slots.Has.setIf
    {c : Bool}
    (h : b.Has i) :
    b.setIf c i p = .ok (b.written c i p) := by
  have hset : b.set i p = .ok { b with slot := update b.slot i p } := if_pos h
  unfold Slots.setIf Slots.written
  cases c with
  | false => rfl
  | true => simpa using hset

/-- A write leaves the block where it is. -/
theorem Slots.setIf_keeps
    {b' : Slots} {c : Bool}
    (h : b.setIf c i p = .ok b') :
    b'.size = b.size ∧ b'.live = b.live := by
  unfold Slots.setIf Slots.set at h
  split at h
  · split at h
    · cases h
      exact ⟨rfl, rfl⟩
    · cases h
  · cases h
    exact ⟨rfl, rfl⟩

/-- A checked read succeeds only inside the block. -/
theorem Slots.has_of_get
    {o : Option Nat}
    (h : b.peek none i = .ok o) :
    b.Has i := by
  unfold Slots.peek at h
  split at h
  · rename_i hlive
    split at h
    · rename_i hi
      exact ⟨hlive, hi⟩
    · simp at h
  · cases h

end Slots

section Calls

variable {eb eb₁ eb' : EbotBase} {env : AddEnv} {ctl : Bool} {e : Event κ α}
variable {p fd : Nat} {r w : Option Nat} {d : Dir} {ret : Int}

/-- The descriptor is inside both tables. -/
structure EbotBase.Covers (eb : EbotBase) (fd : Nat) : Prop where
  read : eb.read_waits.Has fd
  write : eb.write_waits.Has fd

/-- The base supports the event's kind. -/
def EbotBase.Supports (eb : EbotBase) (e : Event κ α) : Prop :=
  e.kide.read ∧ eb.kides.read ∨ e.kide.write ∧ eb.kides.write

instance (eb : EbotBase) (e : Event κ α) : Decidable (eb.Supports e) := by
  unfold EbotBase.Supports
  infer_instance

/-- The operation `ebot_add_event` asks of the kernel. -/
def addOp (r w : Option Nat) : EpollOp :=
  if r.isSome ∨ w.isSome then .mod else .add

/-- The mask it asks for. -/
def addMask (k : Kides) (r w : Option Nat) : EpollEvents :=
  { epollin := k.read || r.isSome
    epollout := k.write || w.isSome
    epollet := k.read }

/-- The base after its writes. -/
def EbotBase.added (eb : EbotBase) (k : Nat → Option EpollEvents) (p : Nat)
    (e : Event κ α) (r w : Option Nat) : EbotBase :=
  { eb with
    epoll := k
    read_waits := eb.read_waits.written (e.kide.read && r.isNone) e.fd (some p)
    write_waits := eb.write_waits.written (e.kide.write && w.isNone) e.fd (some p) }

theorem EbotBase.added_slot
    {k : Nat → Option EpollEvents} {i : Nat} {d : Dir} :
    (eb.added k p e r w).slot d i =
      if e.kide.has d ∧ i = e.fd ∧ foundFor r w d = none then some p
      else eb.slot d i := by
  cases d with
  | read =>
      cases hk : e.kide.read <;> cases r <;>
        simp [EbotBase.slot, EbotBase.waits, EbotBase.added, Slots.written, foundFor,
          Kides.has, hk, update_apply]
  | write =>
      cases hk : e.kide.write <;> cases w <;>
        simp [EbotBase.slot, EbotBase.waits, EbotBase.added, Slots.written, foundFor,
          Kides.has, hk, update_apply]

/-- A slot inside the tables is read. -/
theorem EbotBase.Covers.get
    (d : Dir)
    (h : eb.Covers fd) :
    (eb.waits d).get fd = .ok (eb.slot d fd) := by
  cases d with
  | read => exact h.read.peek
  | write => exact h.write.peek

/-- Queueing what was reported for a descriptor inside the tables, which are left as
they are. -/
theorem EbotBase.Covers.queueReported_returns
    (reported : Bool)
    (d : Dir)
    (ev : Nat → Event κ α)
    (h : eb.Covers fd) :
    ∃ eb' ev', queueReported reported d fd eb ev = .ok (eb', ev') ∧
      ∀ fd', eb.Covers fd' → eb'.Covers fd' := by
  unfold queueReported
  cases reported with
  | false => exact ⟨eb, ev, rfl, fun _ => id⟩
  | true =>
      rw [if_pos rfl, h.get d, ok_bind]
      refine ⟨_, _, rfl, fun fd' hcovers => ?_⟩
      unfold queuedEventReadies
      split
      · exact hcovers
      · split
        · exact hcovers
        · exact ⟨hcovers.read, hcovers.write⟩

/-- The loop over reports for descriptors inside the tables. -/
theorem ebotLoopCollect_returns
    {reports : List Report}
    (ev : Nat → Event κ α)
    (h : ∀ rep ∈ reports, eb.Covers rep.fd) :
    ∃ o, ebotLoopCollect eb ev reports = .ok o := by
  induction reports generalizing eb ev with
  | nil => exact ⟨_, rfl⟩
  | cons rep reports ih =>
      have hrep := h rep List.mem_cons_self
      obtain ⟨eb₁, ev₁, hread, hkeep₁⟩ :=
        hrep.queueReported_returns rep.events.epollin .read ev
      obtain ⟨eb₂, ev₂, hwrite, hkeep₂⟩ :=
        (hkeep₁ _ hrep).queueReported_returns rep.events.epollout .write ev₁
      unfold ebotLoopCollect
      rw [hread, ok_bind]
      dsimp only
      rw [hwrite, ok_bind]
      exact ih ev₂ fun rep' hmem => hkeep₂ _ (hkeep₁ _ (h rep' (List.mem_cons_of_mem _ hmem)))

theorem growFor_of_lt
    (h : fd < eb.wait_sz) :
    growFor env eb fd = .ok eb := by
  unfold growFor
  rw [if_neg (by omega)]

theorem ebotAddEvent_of_not_supports
    (h : ¬ eb.Supports e) :
    ebotAddEvent env eb p e = .ok (-1, eb) := by
  unfold ebotAddEvent
  exact if_pos h

/-- An add that finds `r` and `w`, and whose descriptor is inside the tables
after they were grown for it. -/
theorem ebotAddEvent_eq
    (hsup : eb.Supports e)
    (hr : eb.read_waits.peek (env.stale.map Prod.fst) e.fd = .ok r)
    (hw : eb.write_waits.peek (env.stale.map Prod.snd) e.fd = .ok w)
    (hg : growFor env eb e.fd = .ok eb₁)
    (hin : eb₁.Covers e.fd) :
    ebotAddEvent env eb p e =
      match epollCtl env.ctl (addOp r w) e.fd (addMask e.kide r w) eb₁.epoll with
      | none => .ok (-1, eb₁)
      | some k => .ok (0, eb₁.added k p e r w) := by
  have hkinds : ¬ ¬ (e.kide.read ∧ eb.kides.read ∨ e.kide.write ∧ eb.kides.write) :=
    not_not_intro hsup
  unfold ebotAddEvent
  rw [if_neg hkinds, hr, hw]
  simp only [ok_bind, hg, hin.read.setIf, hin.write.setIf]
  rfl

/-- An add of a descriptor below `wait_sz`. -/
theorem ebotAddEvent_covered
    (hsup : eb.Supports e)
    (hin : eb.Covers e.fd)
    (hlt : (e.fd : Nat) < eb.wait_sz) :
    ebotAddEvent env eb p e =
      let r := eb.slot .read e.fd
      let w := eb.slot .write e.fd
      match epollCtl env.ctl (addOp r w) e.fd (addMask e.kide r w) eb.epoll with
      | none => .ok (-1, eb)
      | some k => .ok (0, eb.added k p e r w) :=
  ebotAddEvent_eq hsup hin.read.peek hin.write.peek (growFor_of_lt hlt) hin

/-- The mask `ebot_del_event` asks for when it removes a direction and found
`o` in the slot of the other one. -/
def delMask (d : Dir) (o : Option Nat) : EpollEvents :=
  let left := if o.isSome then d.other else d
  { epollin := left.kide.read
    epollout := left.kide.write
    epollet := o.isSome && left.kide.read }

/-- The operation it asks of the kernel. -/
def delOp (o : Option Nat) : EpollOp :=
  if o.isSome then .mod else .del

/-- The base with the slot of a direction emptied. -/
def EbotBase.emptied (eb : EbotBase) (k : Nat → Option EpollEvents) (d : Dir)
    (fd : Nat) : EbotBase :=
  { eb with
    epoll := k
    read_waits := eb.read_waits.written (decide (d = .read)) fd none
    write_waits := eb.write_waits.written (decide (d = .write)) fd none }

theorem EbotBase.emptied_slot
    {k : Nat → Option EpollEvents} {d d' : Dir} {i : Nat} :
    (eb.emptied k d fd).slot d' i =
      if d' = d ∧ i = fd then none else eb.slot d' i := by
  cases d <;> cases d' <;>
    simp [EbotBase.slot, EbotBase.waits, EbotBase.emptied, Slots.written, update_apply]

/-- A write of what is there changes nothing. -/
theorem Slots.written_none_of_slot
    {b : Slots} {i : Nat} {c : Bool}
    (h : c = true → b.slot i = none) :
    b.written c i none = b := by
  unfold Slots.written
  cases c with
  | false => rfl
  | true =>
      rw [if_pos rfl, ← h rfl, update_eq_self]

/-- A removal inside the tables. -/
theorem ebotDelEvent_eq
    (hd : e.IsFor d)
    (hin : eb.Covers e.fd) :
    ebotDelEvent ctl eb e =
      let o := eb.slot d.other e.fd
      match epollCtl ctl (delOp o) e.fd (delMask d o) eb.epoll with
      | none => .ok (-1, eb)
      | some k => .ok (0, eb.emptied k d e.fd) := by
  have hkide : e.kide = d.kide := hd
  unfold ebotDelEvent
  cases d with
  | read =>
      have hw : eb.write_waits.getIf e.kide.read e.fd =
          .ok (eb.slot .write e.fd) := by
        rw [hkide]
        exact hin.write.peek
      have hr : ∀ c : Bool, eb.read_waits.getIf (e.kide.write && c) e.fd = .ok none := by
        intro c
        rw [hkide]
        rfl
      simp only [hw, hr, ok_bind, hin.read.setIf, hin.write.setIf]
      have hkeep : eb.write_waits.written (eb.slot .write e.fd).isNone e.fd none =
          eb.write_waits :=
        Slots.written_none_of_slot fun h => Option.isNone_iff_eq_none.mp h
      have hsame : eb.write_waits.written false e.fd none = eb.write_waits :=
        Slots.written_none_of_slot (by simp)
      simp only [hkeep, EbotBase.emptied, Dir.other, reduceCtorEq, decide_false, hsame]
      cases ho : eb.slot .write e.fd with
      | none =>
          simp only [delOp, delMask, Dir.kide, Dir.other, hkide, Option.isSome_none]
          rfl
      | some q =>
          simp only [delOp, delMask, Dir.kide, Dir.other, hkide, Option.isSome_some]
          rfl
  | write =>
      have hw : eb.write_waits.getIf e.kide.read e.fd = .ok none := by
        rw [hkide]
        rfl
      have hr : eb.read_waits.getIf (e.kide.write && (none : Option Nat).isNone) e.fd =
          .ok (eb.slot .read e.fd) := by
        rw [hkide]
        exact hin.read.peek
      simp only [hw, hr, ok_bind, hin.read.setIf, hin.write.setIf]
      have hkeep : eb.read_waits.written (eb.slot .read e.fd).isNone e.fd none =
          eb.read_waits :=
        Slots.written_none_of_slot fun h => Option.isNone_iff_eq_none.mp h
      have hsame : eb.read_waits.written false e.fd none = eb.read_waits :=
        Slots.written_none_of_slot (by simp)
      simp only [hkeep, EbotBase.emptied, Dir.other, reduceCtorEq, decide_false, hsame]
      cases ho : eb.slot .read e.fd with
      | none =>
          simp only [delOp, delMask, Dir.kide, Dir.other, hkide, Option.isSome_none]
          rfl
      | some q =>
          simp only [delOp, delMask, Dir.kide, Dir.other, hkide, Option.isSome_some]
          rfl

end Calls

namespace WaitTables

/-- A call on an event base. -/
inductive Call (κ α : Type) where
  /-- `ebot_add_event` of the event `e` at `p`. -/
  | add (env : AddEnv) (p : Nat) (e : Event κ α)
  /-- `ebot_del_event`, with the answer of `epoll_ctl`. -/
  | del (ctl : Bool) (e : Event κ α)

/-- The event the call is about. -/
def Call.event : Call κ α → Event κ α
  | .add _ _ e => e
  | .del _ e => e

/-- The call, with what it returns. -/
def Call.make (eb : EbotBase) : Call κ α → Except Stop (Int × EbotBase)
  | .add env p e => ebotAddEvent env eb p e
  | .del ctl e => ebotDelEvent ctl eb e

/-- The base after a call, whatever it returns. -/
def step (eb : EbotBase) (c : Call κ α) : Except Stop EbotBase :=
  (c.make eb).map Prod.snd

theorem step_eq_ok
    {eb eb' : EbotBase} {c : Call κ α} :
    step eb c = .ok eb' ↔ ∃ ret, c.make eb = .ok (ret, eb') := by
  unfold step
  cases c.make eb with
  | error stop => simp [Except.map]
  | ok o =>
      obtain ⟨ret, eb₁⟩ := o
      simp [Except.map]

/-! ## Bounds -/

/-- Every access of `ebot_add_event` to the tables is inside the block it is
made in, for these answers of the kernel and of `realloc`: with no values to be
found outside, such an access would be a fault. -/
def InBounds (eb : EbotBase) (p : Nat) (e : Event κ α)
    (ctl reallocR reallocW : Bool) : Prop :=
  ∃ o, ebotAddEvent ⟨ctl, none, reallocR, reallocW⟩ eb p e = .ok o

/-- Both tables have `wait_sz` elements.  Only `read_waits` can have been
freed. -/
structure Sized (eb : EbotBase) : Prop where
  read : eb.read_waits.size = eb.wait_sz
  write : eb.write_waits.size = eb.wait_sz
  live : eb.write_waits.live = true

section Sized

variable {eb eb₁ eb' : EbotBase} {env : AddEnv} {ctl : Bool} {e : Event κ α}
variable {p fd : Nat} {ret : Int}

theorem sized_ebotNew
    (kides : Kides) :
    Sized (ebotNew kides) where
  read := rfl
  write := rfl
  live := rfl

theorem Sized.covers
    (h : Sized eb)
    (hlive : eb.read_waits.live = true)
    (hlt : fd < eb.wait_sz) :
    eb.Covers fd where
  read := ⟨hlive, h.read.symm ▸ hlt⟩
  write := ⟨h.live, h.write.symm ▸ hlt⟩

/-- Writes into the tables leave their sizes alone. -/
theorem Sized.setIf
    {k : Nat → Option EpollEvents} {rd wr : Slots} {c c' : Bool} {q : Option Nat}
    (h : Sized eb)
    (hrd : eb.read_waits.setIf c fd q = .ok rd)
    (hwr : eb.write_waits.setIf c' fd q = .ok wr) :
    Sized { eb with epoll := k, read_waits := rd, write_waits := wr } := by
  obtain ⟨hwrsize, hwrlive⟩ := Slots.setIf_keeps hwr
  exact ⟨(Slots.setIf_keeps hrd).1.trans h.read, hwrsize.trans h.write,
    hwrlive.trans h.live⟩

theorem Sized.growFor
    (h : Sized eb)
    (hg : growFor env eb fd = .ok eb') :
    Sized eb' := by
  rcases growFor_resizes hg with ⟨-, rfl⟩ | ⟨-, -, ret, hres⟩
  · exact h
  · cases hres with
    | refused => exact h
    | halfway => exact ⟨h.read, h.write, h.live⟩
    | doubled => exact ⟨rfl, rfl, rfl⟩

/-- No call changes the sizes other than by growth. -/
theorem Sized.step
    {c : Call κ α}
    (h : Sized eb)
    (hstep : step eb c = .ok eb') :
    Sized eb' := by
  obtain ⟨ret, hmake⟩ := step_eq_ok.mp hstep
  cases c with
  | add env p e =>
      simp only [Call.make] at hmake
      unfold ebotAddEvent at hmake
      split at hmake
      · cases hmake
        exact h
      obtain ⟨r, -, hmake⟩ := bind_eq_ok.mp hmake
      obtain ⟨w, -, hmake⟩ := bind_eq_ok.mp hmake
      dsimp only at hmake
      obtain ⟨eb₁, hg, hmake⟩ := bind_eq_ok.mp hmake
      have h₁ : Sized eb₁ := h.growFor hg
      split at hmake
      · cases hmake
        exact h₁
      · obtain ⟨rd, hrd, hmake⟩ := bind_eq_ok.mp hmake
        obtain ⟨wr, hwr, hmake⟩ := bind_eq_ok.mp hmake
        cases hmake
        exact h₁.setIf hrd hwr
  | del ctl e =>
      simp only [Call.make] at hmake
      unfold ebotDelEvent at hmake
      obtain ⟨w, -, hmake⟩ := bind_eq_ok.mp hmake
      obtain ⟨r, -, hmake⟩ := bind_eq_ok.mp hmake
      dsimp only at hmake
      split at hmake
      · cases hmake
        exact h
      · obtain ⟨rd, hrd, hmake⟩ := bind_eq_ok.mp hmake
        obtain ⟨wr, hwr, hmake⟩ := bind_eq_ok.mp hmake
        cases hmake
        exact h.setIf hrd hwr

theorem sized_of_reach
    {kides : Kides} {good : EbotBase → Call κ α → Prop}
    (hreach : Reach step good (ebotNew kides) eb) :
    Sized eb :=
  hreach.invariant (sized_ebotNew kides) fun _ _ _ h _ hstep => h.step hstep

/-- An add stays in bounds exactly when its descriptor is below `wait_sz` and
`read_waits` is still allocated: the reads come before the growth. -/
theorem Sized.inBounds_iff
    (h : Sized eb)
    (hsup : eb.Supports e)
    (ctl reallocR reallocW : Bool) :
    InBounds eb p e ctl reallocR reallocW ↔
      (e.fd : Nat) < eb.wait_sz ∧ eb.read_waits.live = true := by
  constructor
  · rintro ⟨o, ho⟩
    have hkinds : ¬ ¬ (e.kide.read ∧ eb.kides.read ∨ e.kide.write ∧ eb.kides.write) :=
      not_not_intro hsup
    unfold ebotAddEvent at ho
    rw [if_neg hkinds] at ho
    obtain ⟨r, hr, -⟩ := bind_eq_ok.mp ho
    have hhas : eb.read_waits.Has e.fd := Slots.has_of_get hr
    exact ⟨h.read ▸ hhas.2, hhas.1⟩
  · rintro ⟨hlt, hlive⟩
    unfold InBounds
    rw [ebotAddEvent_covered hsup (h.covers hlive hlt) hlt]
    dsimp only
    split
    · exact ⟨_, rfl⟩
    · exact ⟨_, rfl⟩

end Sized

/-- For every base that any calls lead to and every event of a supported kind,
`ebot_add_event` stays inside the tables exactly when the descriptor is below
`wait_sz` and `read_waits` was not freed by a growth that failed halfway. -/
theorem add_event_in_bounds
    {κ α : Type}
    (kides : Kides)
    (eb : EbotBase)
    (hreach : Reachable (step (κ := κ) (α := α)) (ebotNew kides) eb)
    (p : Nat)
    (e : Event κ α)
    (hsup : eb.Supports e)
    (ctl reallocR reallocW : Bool) :
    InBounds eb p e ctl reallocR reallocW ↔
      (e.fd : Nat) < eb.wait_sz ∧ eb.read_waits.live = true :=
  (sized_of_reach hreach).inBounds_iff hsup ctl reallocR reallocW

/-- The descriptor 7 in a new base. -/
theorem add_event_in_bounds_seven :
    InBounds (ebotNew ⟨true, true⟩) 0 (eventRead 7 (some ()) ()) true true true ↔
      7 < 1024 ∧ true = true :=
  add_event_in_bounds ⟨true, true⟩ _ .start 0 (eventRead 7 (some ()) ())
    (.inl ⟨rfl, rfl⟩) true true true

/-- The descriptor 1024 in a new base is read past the end of the tables,
although the tables are then grown for it. -/
theorem not_add_event_in_bounds :
    ¬ ∀ (kides : Kides) (eb : EbotBase),
      Reachable (step (κ := Unit) (α := Unit)) (ebotNew kides) eb →
      ∀ (p : Nat) (e : Event Unit Unit), eb.Supports e →
      ∀ ctl reallocR reallocW : Bool, InBounds eb p e ctl reallocR reallocW := by
  intro h
  obtain ⟨o, ho⟩ := h ⟨true, true⟩ _ .start 0 (eventRead 1024 (some ()) ())
    (.inl ⟨rfl, rfl⟩) true true true
  cases ho

/-! ## Growth -/

/-- Every allocation and `epoll_ctl` succeed, and what lies behind the tables
is `NULL`. -/
def granted : AddEnv := ⟨true, some (none, none), true, true⟩

/-- The call grows the tables. -/
def Grows (eb : EbotBase) (e : Event κ α) : Prop :=
  eb.Supports e ∧ eb.wait_sz ≤ e.fd

/-- Calls of `ebot_add_event` in granted surroundings for which one doubling is
enough. -/
def Doubles (eb : EbotBase) : Call κ α → Prop
  | .add env _ e => env = granted ∧ (Grows eb e → (e.fd : Nat) < 2 * eb.wait_sz)
  | .del _ _ => False

/-- Of these, the ones that grow the tables at most for the first time. -/
def DoublesOnce (eb : EbotBase) (c : Call κ α) : Prop :=
  Doubles eb c ∧ (Grows eb c.event → eb.wait_sz = eb.epsz)

/-- What growing for the event `e` at `p` should do: the entries there were are
kept, the new ones are `NULL` but for the event itself, and whatever a report
selected it still selects. -/
structure KeepsEntries (eb : EbotBase) (p : Nat) (e : Event κ α)
    (eb' : EbotBase) : Prop where
  old : ∀ d i, i < eb.wait_sz → eb'.slot d i = eb.slot d i
  new : ∀ d i, eb.wait_sz ≤ i → i < eb'.wait_sz →
    eb'.slot d i = if e.kide.has d ∧ i = e.fd then some p else none
  selected : ∀ d i q, eb.slot d i = some q → eb'.slot d i = some q

/-- What runs of such calls keep. -/
structure Grown (eb : EbotBase) : Prop where
  sized : Sized eb
  live : eb.read_waits.live = true
  least : eb.epsz ≤ eb.wait_sz
  inside : ∀ d i q, eb.slot d i = some q → i < eb.wait_sz
  watched : ∀ i, eb.wait_sz ≤ i → eb.epoll i = none
  /-- After the first growth there is an event in the part the next one clears. -/
  used : eb.epsz < eb.wait_sz →
    ∃ d i, eb.epsz ≤ i ∧ i < eb.wait_sz ∧ eb.slot d i ≠ none

section Grown

variable {eb eb₁ eb' : EbotBase} {e : Event κ α} {p fd : Nat} {ret : Int}

theorem grown_ebotNew
    (kides : Kides) :
    Grown (ebotNew kides) where
  sized := sized_ebotNew kides
  live := rfl
  least := le_refl _
  inside := by
    intro d i q h
    cases d <;> cases h
  watched := fun _ _ => rfl
  used := fun h => absurd h (lt_irrefl _)

/-- The read that precedes the growth finds the slot; behind the table that
is `NULL`. -/
theorem peek_granted
    {b : Slots} {i n : Nat}
    (hlive : b.live = true)
    (hsize : b.size = n)
    (hout : n ≤ i → b.slot i = none) :
    b.peek (some none) i = .ok (b.slot i) := by
  by_cases hi : i < b.size
  · exact Slots.Has.peek ⟨hlive, hi⟩
  · have hnone : b.slot i = none := hout (by omega)
    unfold Slots.peek
    rw [if_pos hlive, if_neg hi, hnone]
    rfl

theorem Grown.slot_none
    (h : Grown eb)
    (d : Dir)
    {i : Nat}
    (hi : eb.wait_sz ≤ i) :
    eb.slot d i = none := by
  cases hslot : eb.slot d i with
  | none => rfl
  | some q =>
      have := h.inside d i q hslot
      omega

/-- The base after its tables were doubled. -/
def doubled (eb : EbotBase) : EbotBase :=
  let grown (b : Slots) : Slots :=
    { live := true, size := eb.wait_sz * 2,
      slot := fun i => if i < eb.epsz ∧ i < b.size then b.slot i else none }
  { eb with
    read_waits := grown eb.read_waits
    write_waits := grown eb.write_waits
    wait_sz := eb.wait_sz * 2 }

/-- Growth keeps the entries below `epsz` only. -/
theorem Grown.doubled_slot
    (h : Grown eb)
    (d : Dir)
    (i : Nat) :
    (doubled eb).slot d i = if i < eb.epsz then eb.slot d i else none := by
  have hleast := h.least
  have hr := h.sized.read
  have hw := h.sized.write
  by_cases hi : i < eb.epsz
  · cases d with
    | read =>
        have hin : i < eb.epsz ∧ i < eb.read_waits.size := ⟨hi, by omega⟩
        simp [EbotBase.slot, EbotBase.waits, doubled, hi, hin]
    | write =>
        have hin : i < eb.epsz ∧ i < eb.write_waits.size := ⟨hi, by omega⟩
        simp [EbotBase.slot, EbotBase.waits, doubled, hi, hin]
  · cases d <;> simp [EbotBase.slot, EbotBase.waits, doubled, hi]

/-- In granted surroundings a growth that returns has doubled the tables. -/
theorem growFor_granted
    (hle : eb.wait_sz ≤ fd)
    (hg : growFor granted eb fd = .ok eb₁) :
    eb₁ = doubled eb := by
  rcases growFor_resizes hg with ⟨hlt, -⟩ | ⟨-, -, ret, hres⟩
  · omega
  · cases hres with
    | refused hfirst => cases hfirst
    | halfway _ hsecond => cases hsecond
    | doubled => rfl

/-- **Growing call.** It doubles the tables and registers its event. -/
theorem Grown.grow
    (h : Grown eb)
    (hgrows : Grows eb e)
    (hlt : (e.fd : Nat) < 2 * eb.wait_sz)
    (hadd : ebotAddEvent granted eb p e = .ok (ret, eb')) :
    ∃ k, eb'.epsz = eb.epsz ∧ eb' = (doubled eb).added k p e none none ∧
      ∀ i : Nat, i ≠ e.fd → k i = eb.epoll i := by
  have hr : eb.read_waits.peek (some none) e.fd = .ok none := by
    have hnone : eb.slot .read e.fd = none := h.slot_none .read hgrows.2
    have := peek_granted h.live h.sized.read (fun hi => h.slot_none .read hi)
      (i := e.fd)
    exact this.trans (congrArg _ hnone)
  have hw : eb.write_waits.peek (some none) e.fd = .ok none := by
    have hnone : eb.slot .write e.fd = none := h.slot_none .write hgrows.2
    have := peek_granted h.sized.live h.sized.write (fun hi => h.slot_none .write hi)
      (i := e.fd)
    exact this.trans (congrArg _ hnone)
  cases hg : growFor granted eb e.fd with
  | error stop =>
      -- the only way not to return is the overflow of the size in bytes
      exfalso
      have hkinds : ¬ ¬ (e.kide.read ∧ eb.kides.read ∨ e.kide.write ∧ eb.kides.write) :=
        not_not_intro hgrows.1
      unfold ebotAddEvent at hadd
      rw [if_neg hkinds] at hadd
      obtain ⟨r, -, hadd⟩ := bind_eq_ok.mp hadd
      obtain ⟨w, -, hadd⟩ := bind_eq_ok.mp hadd
      dsimp only at hadd
      obtain ⟨eb₁, hg₁, -⟩ := bind_eq_ok.mp hadd
      rw [hg] at hg₁
      cases hg₁
  | ok eb₁ =>
      obtain rfl := growFor_granted hgrows.2 hg
      have hcovers : (doubled eb).Covers e.fd :=
        ⟨⟨rfl, by simp only [doubled]; omega⟩, ⟨rfl, by simp only [doubled]; omega⟩⟩
      have heq : ebotAddEvent granted eb p e = _ :=
        ebotAddEvent_eq hgrows.1 hr hw hg hcovers
      rw [heq] at hadd
      have hnone : (doubled eb).epoll e.fd = none := h.watched e.fd hgrows.2
      have hctl : epollCtl granted.ctl (addOp none none) e.fd
          (addMask e.kide none none) (doubled eb).epoll =
            some (update eb.epoll e.fd (some (addMask e.kide none none))) := by
        simp only [epollCtl, granted, addOp, Option.isSome_none,
          Bool.false_eq_true, or_self, if_false, hnone]
        rfl
      rw [hctl] at hadd
      cases hadd
      exact ⟨_, rfl, rfl, fun i hi => update_of_ne hi _ _⟩

/-- The tables after a growing call. -/
theorem Grown.grow_slot
    {k : Nat → Option EpollEvents}
    (h : Grown eb)
    (d : Dir)
    (i : Nat) :
    ((doubled eb).added k p e none none).slot d i =
      if e.kide.has d ∧ i = e.fd then some p
      else if i < eb.epsz then eb.slot d i else none := by
  rw [EbotBase.added_slot, h.doubled_slot]
  cases d <;> simp [foundFor]

/-- A supported event is for one of the directions. -/
theorem exists_has_of_supports
    (h : eb.Supports e) :
    ∃ d, e.kide.has d = true := by
  rcases h with h | h
  · exact ⟨.read, h.1⟩
  · exact ⟨.write, h.1⟩

/-- **Call that does not grow.** It registers its event where the slot is
empty, or changes nothing. -/
theorem Grown.add
    (h : Grown eb)
    (hgrows : ¬ Grows eb e)
    (hadd : ebotAddEvent granted eb p e = .ok (ret, eb')) :
    eb' = eb ∨ (e.fd : Nat) < eb.wait_sz ∧
      ∃ k, eb' = eb.added k p e (eb.slot .read e.fd) (eb.slot .write e.fd) ∧
        ∀ i : Nat, i ≠ e.fd → k i = eb.epoll i := by
  by_cases hsup : eb.Supports e
  · have hlt : (e.fd : Nat) < eb.wait_sz := by
      by_contra hle
      exact hgrows ⟨hsup, by omega⟩
    rw [ebotAddEvent_covered hsup (h.sized.covers h.live hlt) hlt] at hadd
    dsimp only at hadd
    split at hadd
    · cases hadd
      exact .inl rfl
    · rename_i k hk
      cases hadd
      refine .inr ⟨hlt, k, rfl, fun i hi => ?_⟩
      rw [epollCtl_some hk, update_of_ne hi]
  · rw [ebotAddEvent_of_not_supports hsup] at hadd
    cases hadd
    exact .inl rfl

/-- A call that does not grow keeps what is registered. -/
theorem slot_of_added
    {k : Nat → Option EpollEvents} {d : Dir} {i q : Nat}
    (hslot : eb.slot d i = some q) :
    (eb.added k p e (eb.slot .read e.fd) (eb.slot .write e.fd)).slot d i = some q := by
  rw [EbotBase.added_slot, if_neg, hslot]
  rintro ⟨-, rfl, hfound⟩
  cases d with
  | read => exact absurd (hfound.symm.trans hslot) (by simp)
  | write => exact absurd (hfound.symm.trans hslot) (by simp)

/-- One call of the run. -/
theorem Grown.step
    {c : Call κ α}
    (h : Grown eb)
    (hdoubles : Doubles eb c)
    (hstep : step eb c = .ok eb') :
    Grown eb' := by
  have hsized' : Sized eb' := h.sized.step hstep
  have hleast := h.least
  obtain ⟨ret, hmake⟩ := step_eq_ok.mp hstep
  cases c with
  | del ctl e => exact hdoubles.elim
  | add env p e =>
      obtain ⟨rfl, hlt⟩ := hdoubles
      by_cases hgrows : Grows eb e
      · obtain ⟨k, -, rfl, hk⟩ := h.grow hgrows (hlt hgrows) hmake
        have hle := hgrows.2
        have hlt' := hlt hgrows
        have hsz : ((doubled eb).added k p e none none).wait_sz = eb.wait_sz * 2 := rfl
        have hep : ((doubled eb).added k p e none none).epsz = eb.epsz := rfl
        refine ⟨hsized', rfl, by omega, ?_, ?_, ?_⟩
        · intro d i q hq
          rw [h.grow_slot] at hq
          split at hq
          · rename_i hown
            omega
          · split at hq
            · omega
            · cases hq
        · intro i hi
          have hne : i ≠ e.fd := by omega
          exact (hk i hne).trans (h.watched i (by omega))
        · intro _
          obtain ⟨d, hd⟩ := exists_has_of_supports hgrows.1
          refine ⟨d, e.fd, by omega, by omega, ?_⟩
          rw [h.grow_slot, if_pos ⟨hd, rfl⟩]
          simp
      · rcases h.add hgrows hmake with rfl | ⟨hfd, k, rfl, hk⟩
        · exact h
        · refine ⟨hsized', h.live, hleast, ?_, ?_, ?_⟩
          · intro d i q hq
            rw [EbotBase.added_slot] at hq
            split at hq
            · rename_i hown
              have : i = e.fd := hown.2.1
              exact this ▸ hfd
            · exact h.inside d i q hq
          · intro i hi
            have hi' : eb.wait_sz ≤ i := hi
            exact (hk i (by omega)).trans (h.watched i hi')
          · intro hused
            obtain ⟨d, i, hlow, hhigh, hslot⟩ := h.used hused
            obtain ⟨q, hq⟩ := Option.ne_none_iff_exists'.mp hslot
            exact ⟨d, i, hlow, hhigh, by rw [slot_of_added hq]; simp⟩

theorem grown_of_reach
    {kides : Kides}
    (hreach : Reach (step (κ := κ) (α := α)) Doubles (ebotNew kides) eb) :
    Grown eb :=
  hreach.invariant (grown_ebotNew kides) fun _ _ _ h hd hstep => h.step hd hstep

/-- A growing call keeps the entries exactly when the tables have not grown
before. -/
theorem Grown.keepsEntries_iff
    (h : Grown eb)
    (hgrows : Grows eb e)
    (hlt : (e.fd : Nat) < 2 * eb.wait_sz)
    (hadd : ebotAddEvent granted eb p e = .ok (ret, eb')) :
    KeepsEntries eb p e eb' ↔ eb.wait_sz = eb.epsz := by
  obtain ⟨k, -, rfl, -⟩ := h.grow hgrows hlt hadd
  have hle := hgrows.2
  have hleast := h.least
  constructor
  · intro hkeep
    by_contra hne
    obtain ⟨d, i, hlow, hhigh, hslot⟩ := h.used (by omega)
    have hold := hkeep.old d i hhigh
    rw [h.grow_slot, if_neg (by omega), if_neg (by omega)] at hold
    exact hslot hold.symm
  · intro heq
    have hold : ∀ d i, i < eb.wait_sz →
        ((doubled eb).added k p e none none).slot d i = eb.slot d i := by
      intro d i hi
      rw [h.grow_slot, if_neg (by omega), if_pos (by omega)]
    refine ⟨hold, ?_, ?_⟩
    · intro d i hi _
      rw [h.grow_slot]
      split
      · rfl
      · rw [if_neg (by omega)]
    · intro d i q hq
      rw [hold d i (h.inside d i q hq), hq]

/-- A run whose growing calls all grow for the first time keeps everything that
is registered. -/
theorem Grown.keeps_of_reach
    {d : Dir} {i q : Nat}
    (h : Grown eb)
    (hreach : Reach (WaitTables.step (κ := κ) (α := α)) DoublesOnce eb eb')
    (hslot : eb.slot d i = some q) :
    eb'.slot d i = some q := by
  have hboth : Grown eb' ∧ eb'.slot d i = some q := by
    refine hreach.invariant (I := fun eb => Grown eb ∧ eb.slot d i = some q) ⟨h, hslot⟩ ?_
    rintro eb c eb' ⟨hgrown, hslot⟩ ⟨hdoubles, honce⟩ hstep
    refine ⟨hgrown.step hdoubles hstep, ?_⟩
    obtain ⟨ret, hmake⟩ := step_eq_ok.mp hstep
    cases c with
    | del ctl e => exact hdoubles.elim
    | add env p e =>
        obtain ⟨rfl, hlt⟩ := hdoubles
        by_cases hgrows : Grows eb e
        · have hkeep := (hgrown.keepsEntries_iff hgrows (hlt hgrows) hmake).mpr
            (honce hgrows)
          exact hkeep.selected d i q hslot
        · rcases hgrown.add hgrows hmake with rfl | ⟨-, k, rfl, -⟩
          · exact hslot
          · exact slot_of_added hslot
  exact hboth.2

end Grown

/-- In every run of granted adds for which one doubling is enough, a growing
call keeps the entries exactly when the tables have not grown before; and a run
that grows them once at most keeps everything that is registered. -/
theorem growth_keeps_registrations
    {κ α : Type}
    (kides : Kides)
    (eb : EbotBase)
    (hreach : Reach (step (κ := κ) (α := α)) Doubles (ebotNew kides) eb) :
    (∀ (p : Nat) (e : Event κ α) (ret : Int) (eb' : EbotBase),
      Grows eb e → (e.fd : Nat) < 2 * eb.wait_sz →
      ebotAddEvent granted eb p e = .ok (ret, eb') →
      (KeepsEntries eb p e eb' ↔ eb.wait_sz = eb.epsz)) ∧
    ∀ eb', Reach (step (κ := κ) (α := α)) DoublesOnce eb eb' →
      ∀ d i q, eb.slot d i = some q → eb'.slot d i = some q := by
  have hgrown : Grown eb := grown_of_reach hreach
  constructor
  · intro p e ret eb' hgrows hlt hadd
    exact hgrown.keepsEntries_iff hgrows hlt hadd
  · intro eb' hreach' d i q hslot
    exact hgrown.keeps_of_reach hreach' hslot

/-- The first growth, for the descriptor 1024. -/
theorem growth_keeps_registrations_first :
    ∃ eb', ebotAddEvent granted (ebotNew ⟨true, true⟩) 1
        (eventRead 1024 (some ()) ()) = .ok (0, eb') ∧
      KeepsEntries (ebotNew ⟨true, true⟩) 1 (eventRead 1024 (some ()) ()) eb' := by
  refine ⟨_, rfl, ?_⟩
  have hgrows : Grows (ebotNew ⟨true, true⟩) (eventRead 1024 (some ()) ()) :=
    ⟨.inl ⟨rfl, rfl⟩, by decide⟩
  exact ((growth_keeps_registrations ⟨true, true⟩ _ .start).1 1 _ 0 _ hgrows
    (by decide) rfl).mpr rfl

/-- With the descriptors 1024 and 2048 the second growth wipes the entry of the
first of them. -/
theorem not_growth_keeps_registrations :
    ¬ ∀ (kides : Kides) (eb : EbotBase),
      Reach (step (κ := Unit) (α := Unit)) Doubles (ebotNew kides) eb →
      ∀ (p : Nat) (e : Event Unit Unit) (ret : Int) (eb' : EbotBase),
        Grows eb e → (e.fd : Nat) < 2 * eb.wait_sz →
        ebotAddEvent granted eb p e = .ok (ret, eb') →
        KeepsEntries eb p e eb' := by
  intro h
  have hfirst : Doubles (ebotNew ⟨true, true⟩)
      (.add granted 1 (eventRead 1024 (some ()) ())) :=
    ⟨rfl, fun _ => by decide⟩
  have hsecond := h ⟨true, true⟩ _ (.next .start hfirst rfl) 2
    (eventRead 2048 (some ()) ()) 0 _ ⟨.inl ⟨rfl, rfl⟩, by decide⟩ (by decide) rfl
  have hlost := hsecond.old .read 1024 (by decide)
  cases hlost

end WaitTables

end Ebot
