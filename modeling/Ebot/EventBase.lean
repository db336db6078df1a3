import Ebot.Outcome
import Mathlib.Logic.Function.Basic

/-!
# Events and event bases

`struct event`, `struct ebot_base` and the functions on them: `event_read` and
`event_write`, `_resize_epoll_events`, `ebot_new`, `ebot_add_event`,
`ebot_del_event`, `queued_event_readies` and the two halves of a loop pass, the
collection of the reports in `ebot_loop` and the steps of `dispatch_events`.

A `struct event *` is a number; a heap `ev : Nat → Event` gives what it points
to.  The `TAILQ` of ready events is a list of pointers.  What becomes of it when
an event that is linked in it is filled in anew, a list cannot say: there a run
ends (`eventInit`).  `ReadyQueues` has the links themselves, and goes on.

The kernel's interest set behind `epfd` is part of the base.  `epollCtl` obeys
it, and may refuse any call besides.
-/

namespace Ebot

open Function

/-- A value of `e_kide`: the or of `E_READ` and `E_WRITE`. -/
structure Kides where
  read : Bool
  write : Bool
deriving DecidableEq

/-- The two directions, each with a wait table. -/
inductive Dir where
  | read
  | write
deriving DecidableEq

/-- `E_READ` or `E_WRITE`. -/
def Dir.kide : Dir → Kides
  | .read => ⟨true, false⟩
  | .write => ⟨false, true⟩

/-- `kide & E_READ` or `kide & E_WRITE`. -/
def Kides.has (k : Kides) : Dir → Bool
  | .read => k.read
  | .write => k.write

/-- The bits of an epoll event mask the code uses. -/
structure EpollEvents where
  epollin : Bool
  epollout : Bool
  epollet : Bool
deriving DecidableEq

/-- `struct event`; `κ` names callbacks and `α` their arguments. -/
structure Event (κ α : Type) where
  fd : Fd
  kide : Kides
  queued : Bool
  cb : Option κ
  arg : α

/-- `event_read` and `event_write`: what they leave in the event. -/
def eventOf {κ α : Type} (d : Dir) (fd : Fd) (cb : Option κ) (arg : α) :
    Event κ α :=
  { fd, kide := d.kide, queued := false, cb, arg }

/-- `event_read`. -/
def eventRead {κ α : Type} (fd : Fd) (cb : Option κ) (arg : α) : Event κ α :=
  eventOf .read fd cb arg

/-- `event_write`. -/
def eventWrite {κ α : Type} (fd : Fd) (cb : Option κ) (arg : α) : Event κ α :=
  eventOf .write fd cb arg

/-- Initialising the event at `p`.  The source does not look at its flag: its
`memset` wipes the links of an event that is queued as well.  The list it is in
cannot follow that, and the run ends. -/
def eventInit {κ α : Type} (ev : Nat → Event κ α) (p : Nat) (e : Event κ α) :
    Except Stop (Nat → Event κ α) :=
  if (ev p).queued then .error .fault else .ok (update ev p e)

/-- A block of `struct event *`: whether it is still allocated, its number of
elements, and the elements. -/
structure Slots where
  live : Bool
  size : Nat
  slot : Nat → Option Nat

/-- Read of an element; outside the block the value is what `stale` says. -/
def Slots.peek (b : Slots) (stale : Option (Option Nat)) (i : Nat) :
    Except Stop (Option Nat) :=
  if b.live then
    if i < b.size then .ok (b.slot i) else orFault stale
  else .error .fault

/-- Checked read of an element. -/
def Slots.get (b : Slots) (i : Nat) : Except Stop (Option Nat) :=
  b.peek none i

/-- Checked read of an element, made only under a condition. -/
def Slots.getIf (b : Slots) (c : Bool) (i : Nat) : Except Stop (Option Nat) :=
  if c then b.get i else .ok none

/-- Checked write of an element. -/
def Slots.set (b : Slots) (i : Nat) (p : Option Nat) : Except Stop Slots :=
  if b.live ∧ i < b.size then .ok { b with slot := update b.slot i p }
  else .error .fault

/-- Checked write of an element, made only under a condition. -/
def Slots.setIf (b : Slots) (c : Bool) (i : Nat) (p : Option Nat) :
    Except Stop Slots :=
  if c then b.set i p else .ok b

/-- `struct ebot_base`, with the kernel's interest set behind `epfd`. -/
structure EbotBase where
  kides : Kides
  epoll : Nat → Option EpollEvents
  epsz : Nat
  wait_sz : Nat
  read_waits : Slots
  write_waits : Slots
  event_readies : List Nat

/-- The wait table of a direction. -/
def EbotBase.waits (eb : EbotBase) : Dir → Slots
  | .read => eb.read_waits
  | .write => eb.write_waits

/-- The event registered for a direction of a descriptor. -/
def EbotBase.slot (eb : EbotBase) (d : Dir) (fd : Nat) : Option Nat :=
  (eb.waits d).slot fd

/-- `EP_SIZE`. -/
def EP_SIZE : Nat := 1024

/-- `ebot_new`, when its allocations and `epoll_create` succeed. -/
def ebotNew (kides : Kides) : EbotBase :=
  { kides, epoll := fun _ => none, epsz := EP_SIZE, wait_sz := EP_SIZE,
    read_waits := ⟨true, EP_SIZE, fun _ => none⟩,
    write_waits := ⟨true, EP_SIZE, fun _ => none⟩,
    event_readies := [] }

/-- Operations of `epoll_ctl`. -/
inductive EpollOp where
  | add
  | mod
  | del
deriving DecidableEq

/-- `epoll_ctl`: `none` when it fails.  `ADD` needs an absent descriptor, `MOD`
and `DEL` a present one; `ok = false` is any other refusal. -/
def epollCtl (ok : Bool) (op : EpollOp) (fd : Nat) (events : EpollEvents)
    (k : Nat → Option EpollEvents) : Option (Nat → Option EpollEvents) :=
  match ok, op, k fd with
  | true, .add, none => some (update k fd (some events))
  | true, .mod, some _ => some (update k fd (some events))
  | true, .del, some _ => some (update k fd none)
  | _, _, _ => none

/-- What the surroundings decide in one `ebot_add_event` call: the answer of
`epoll_ctl`, the values found where the tables are read past their end (`none`:
such a read is undefined behaviour), the outcomes of the two `realloc`s. -/
structure AddEnv where
  ctl : Bool
  stale : Option (Option Nat × Option Nat)
  reallocR : Bool
  reallocW : Bool

/-- Surroundings in which reads past the end of a table are undefined. -/
def AddEnv.strict (ctl : Bool) : AddEnv := ⟨ctl, none, false, false⟩

/-- `_resize_epoll_events`.  The size in bytes is an `int`, which must not
overflow.  A second `realloc` that fails leaves `read_waits` pointing to a block
that was moved and freed. -/
def resizeEpollEvents (env : AddEnv) (eb : EbotBase) :
    Except Stop (Int × EbotBase) :=
  let newsz := eb.wait_sz * 2
  let grown (b : Slots) : Slots :=
    { live := true, size := newsz,
      slot := fun i => if i < eb.epsz ∧ i < b.size then b.slot i else none }
  if 2147483647 < newsz * 8 then
    .error .fault
  else if ¬ eb.read_waits.live then
    .error .fault
  else if ¬ env.reallocR then
    .ok (-1, eb)
  else if ¬ eb.write_waits.live then
    .error .fault
  else if ¬ env.reallocW then
    .ok (-1, { eb with read_waits := { eb.read_waits with live := false } })
  else
    .ok (0, { eb with
      read_waits := grown eb.read_waits
      write_waits := grown eb.write_waits
      wait_sz := newsz })

/-- The `if` in `ebot_add_event` that grows the tables; it ignores the result. -/
def growFor (env : AddEnv) (eb : EbotBase) (fd : Nat) : Except Stop EbotBase :=
  if eb.wait_sz ≤ fd then (resizeEpollEvents env eb).map Prod.snd else .ok eb

/-- `ebot_add_event` of the event `e` at `p`. -/
def ebotAddEvent {κ α : Type} (env : AddEnv) (eb : EbotBase) (p : Nat)
    (e : Event κ α) : Except Stop (Int × EbotBase) :=
  if ¬ (e.kide.read ∧ eb.kides.read ∨ e.kide.write ∧ eb.kides.write) then
    .ok (-1, eb)
  else do
    let r ← eb.read_waits.peek (env.stale.map Prod.fst) e.fd
    let w ← eb.write_waits.peek (env.stale.map Prod.snd) e.fd
    let op : EpollOp := if r.isSome ∨ w.isSome then .mod else .add
    let events : EpollEvents :=
      { epollin := e.kide.read || r.isSome
        epollout := e.kide.write || w.isSome
        epollet := e.kide.read }
    let eb ← growFor env eb e.fd
    match epollCtl env.ctl op e.fd events eb.epoll with
    | none => .ok (-1, eb)
    | some k => do
        let rd ← eb.read_waits.setIf (e.kide.read && r.isNone) e.fd (some p)
        let wr ← eb.write_waits.setIf (e.kide.write && w.isNone) e.fd (some p)
        .ok (0, { eb with epoll := k, read_waits := rd, write_waits := wr })

/-- `ebot_del_event` of the event `e`; `ctl` is the answer of `epoll_ctl`. -/
def ebotDelEvent {κ α : Type} (ctl : Bool) (eb : EbotBase) (e : Event κ α) :
    Except Stop (Int × EbotBase) := do
  let w ← eb.write_waits.getIf e.kide.read e.fd
  let r ← eb.read_waits.getIf (e.kide.write && w.isNone) e.fd
  let op : EpollOp := if w.isSome ∨ r.isSome then .mod else .del
  let events : EpollEvents :=
    if w.isSome then ⟨false, true, false⟩
    else if r.isSome then ⟨true, false, true⟩
    else ⟨e.kide.read, e.kide.write, false⟩
  match epollCtl ctl op e.fd events eb.epoll with
  | none => .ok (-1, eb)
  | some k => do
      let rd ← eb.read_waits.setIf r.isNone e.fd none
      let wr ← eb.write_waits.setIf w.isNone e.fd none
      .ok (0, { eb with epoll := k, read_waits := rd, write_waits := wr })

/-- `queued_event_readies`, with the heap its flag lives in. -/
def queuedEventReadies {κ α : Type} (eb : EbotBase) (ev : Nat → Event κ α) :
    Option Nat → Int × EbotBase × (Nat → Event κ α)
  | none => (-1, eb, ev)
  | some p =>
      if (ev p).queued then (-1, eb, ev)
      else
        (0, { eb with event_readies := eb.event_readies ++ [p] },
          update ev p { ev p with queued := true })

/-- One entry `epoll_wait` fills in. -/
structure Report where
  fd : Nat
  events : EpollEvents
deriving DecidableEq

/-- One `if` in the loop of `ebot_loop`: when the kind was reported, the event
registered for it is queued. -/
def queueReported {κ α : Type} (reported : Bool) (d : Dir) (fd : Nat)
    (eb : EbotBase) (ev : Nat → Event κ α) :
    Except Stop (EbotBase × (Nat → Event κ α)) := do
  if reported then
    let p ← (eb.waits d).get fd
    .ok (queuedEventReadies eb ev p).2
  else
    .ok (eb, ev)

/-- The `for` loop of `ebot_loop` over the reports. -/
def ebotLoopCollect {κ α : Type} (eb : EbotBase) (ev : Nat → Event κ α) :
    List Report → Except Stop (EbotBase × (Nat → Event κ α))
  | [] => .ok (eb, ev)
  | rep :: reps => do
      let (eb, ev) ← queueReported rep.events.epollin .read rep.fd eb ev
      let (eb, ev) ← queueReported rep.events.epollout .write rep.fd eb ev
      ebotLoopCollect eb ev reps

/-- One round of the loop in `dispatch_events` up to the callback: the event
taken from the queue, the base and the heap. -/
def dispatchNext {κ α : Type} (eb : EbotBase) (ev : Nat → Event κ α) :
    Option (Nat × EbotBase × (Nat → Event κ α)) :=
  match eb.event_readies with
  | [] => none
  | p :: rest =>
      some (p, { eb with event_readies := rest },
        update ev p { ev p with queued := false })

/-- The callback `dispatch_events` makes for an event, if any. -/
def Event.callback {κ α : Type} (e : Event κ α) : Option κ :=
  if e.kide.read ∨ e.kide.write then e.cb else none

end Ebot
