import Ebot.EventPool
import Ebot.Library.EdgeSource
import Ebot.Library.Transition
import Ebot.PackData

/-!
# The running server

The server after `eb_srv_new` and `eb_srv_listen`: the master and the reactors,
each running its event base, and the workers of the factory.  Between two steps
of a thread any other thread may run.  A thread's step ends where another
thread can see its effect: at every call of the event pool, write to or read
from a pipe, `accept`, `recv`, ring operation, `eventfd` operation and
application callback.  `Pc` says where in its callback a thread is.

The descriptors whose readiness decides what is reported edge-triggered, the
listening socket and the pipes, are edge sources.  For client sockets any
report within the interest set and any answer of `recv` is possible.
Application callbacks do not close descriptors.
-/

namespace Ebot

open Function EdgeSource Transition

/-- The fields of `eb_settings` that the server reads. -/
structure EbSettings where
  memory_pool_size : Int
  reactor_num : Int
  factory_num : Int
  max_connections : Int

/-- `n`, or the default 4 of `eb_srv_new` for a size that is not positive. -/
def orFour (n : Int) : Nat := if n ≤ 0 then 4 else n.toNat

theorem orFour_pos
    (n : Int) :
    0 < orFour n := by
  unfold orFour
  split <;> omega

/-- What is fixed when the server starts: its settings, the listening socket
and the read ends of the pipes, the descriptors open by then, the installed
callbacks and `udata`. -/
structure Cfg where
  setting : EbSettings
  sfd : Fd
  pipeFd : Nat → Fd
  opened : Fd → Bool
  callbacks : EbEvent → Bool
  udata : UInt64
  sfd_opened : opened sfd = true
  pipe_opened : ∀ i, i < orFour setting.reactor_num → opened (pipeFd i) = true

namespace Cfg

/-- `psz` of `eb_srv_new`. -/
def psz (cfg : Cfg) : Nat := orFour cfg.setting.memory_pool_size

/-- `slave_reactor->rsz`. -/
def rsz (cfg : Cfg) : Nat := orFour cfg.setting.reactor_num

/-- `factory->num`. -/
def num (cfg : Cfg) : Nat := orFour cfg.setting.factory_num

/-- The reactor a descriptor is handed to. -/
def reactorOf (cfg : Cfg) (fd : Fd) : Nat := fd % cfg.rsz

/-- The factory unit the packets of a descriptor go to. -/
def unitOf (cfg : Cfg) (fd : Fd) : Nat := fd % cfg.num

/-- The thread exists. -/
def Runs (cfg : Cfg) : Tid → Prop
  | .master => True
  | .reactor i => i < cfg.rsz

instance (cfg : Cfg) (t : Tid) : Decidable (cfg.Runs t) := by
  rcases t <;> dsimp only [Runs] <;> infer_instance

instance (cfg : Cfg) (P : Tid → Prop) [DecidablePred P] :
    Decidable (∀ t, cfg.Runs t → P t) :=
  decidable_of_iff (P .master ∧ ∀ i, i < cfg.rsz → P (.reactor i))
    ⟨fun h t ht => by
      cases t with
      | master => exact h.1
      | reactor i => exact h.2 i ht,
    fun h => ⟨h .master trivial, fun i hi => h (.reactor i) hi⟩⟩

end Cfg

/-- Where a thread with an event base is. -/
inductive Pc where
  /-- Before its own event is added. -/
  | boot
  /-- Before `epoll_wait`. -/
  | idle
  /-- In `dispatch_events`, no callback running. -/
  | dispatch
  /-- `ebot_srv_accept`. -/
  | accept
  /-- Before the write to the pipe. -/
  | handOff (fd : Fd)
  /-- After it, before `EB_CONNECT`. -/
  | announce (fd : Fd)
  /-- Before `total_conns++`. -/
  | count
  /-- `reactor_pool_pipe_callback` for a reactor. -/
  | pipeRead (i : Nat)
  /-- Before the `mpool_get_with_lock` for a direction. -/
  | opening (d : Dir) (i : Nat) (fd : Fd)
  /-- Before the `mpool_put_with_lock` after a failed add. -/
  | undoing (d : Dir) (i : Nat) (fd : Fd) (p : Nat)
  /-- `reactor_pool_client_read_callback` for a reactor. -/
  | recv (i : Nat) (fd : Fd)
  /-- Before the `if` of the close path for a direction. -/
  | closing (d : Dir) (i : Nat) (fd : Fd)
  /-- Before `ringq_push_with_lock`, with `n` and `data`. -/
  | pushing (fd : Fd) (n : Int) (d : PackData)
  /-- Before the write to the `efd` of a unit. -/
  | notify (u : Nat)
deriving DecidableEq

/-- What follows the opening of a direction. -/
def Pc.opened (i : Nat) (fd : Fd) : Dir → Pc
  | .read => .opening .write i fd
  | .write => .dispatch

/-- What follows the closing of a direction. -/
def Pc.closed (i : Nat) (fd : Fd) : Dir → Pc
  | .read => .closing .write i fd
  | .write => .pushing fd (-2) (.blank (fd : Nat))

/-- What follows `readn`. -/
def Pc.received (i : Nat) (fd : Fd) (r : RecvResult) : Pc :=
  if readn r = -2 then .closing .read i fd
  else if readn r = -1 then .dispatch
  else .pushing fd (readn r) (packed fd r)

/-- `wunit`; `waiting` says that the worker is blocked in reading `efd`. -/
structure Wunit where
  rq : Ringq
  efd : Nat
  waiting : Bool

/-- Who makes an application callback. -/
inductive Caller where
  | thread (t : Tid)
  | worker (u : Nat)
deriving DecidableEq

/-- Entries of the server's history. -/
inductive Note where
  /-- `ebot_srv_accept` took the connection. -/
  | accepted (fd : Fd)
  /-- `ebot_srv_accept` closed it at once. -/
  | rejected (fd : Fd)
  /-- An application callback was started. -/
  | called (caller : Caller) (e : EbEvent) (stream : EbStream)
  /-- `readn` returned `n` and left `d` in `data`. -/
  | received (fd : Fd) (n : Int) (d : PackData)
  /-- The push of `d` after `readn` returned `n` succeeded. -/
  | pushed (u : Nat) (fd : Fd) (n : Int) (d : PackData)
  /-- The push was refused. -/
  | refused (u : Nat) (fd : Fd) (n : Int) (d : PackData)
  /-- The handler of a unit popped `d`. -/
  | handled (u : Nat) (d : PackData)
deriving DecidableEq

/-- The state of the server. -/
structure Server where
  total_conns : Int
  events : EventState
  pc : Tid → Pc
  pipe : Nat → Source Fd
  backlog : Source Unit
  units : Nat → Wunit
  isOpen : Fd → Bool
  log : List Note

/-- What the surroundings decide when a thread runs. -/
structure Env where
  /-- No refusal by `epoll_ctl` beyond absence and presence. -/
  ctl : Bool
  /-- The answer of `accept`. -/
  accepted : Option Fd
  /-- The write to the pipe succeeds. -/
  pipeOk : Bool
  /-- The answer of `recv`. -/
  recv : RecvResult

/-- Moves of the server and its surroundings. -/
inductive Action where
  /-- A connection arrives in the backlog. -/
  | arrive
  /-- `epoll_wait` of a thread returns. -/
  | wait (t : Tid) (reports : List Report)
  /-- A thread takes its next step. -/
  | run (t : Tid) (env : Env)
  /-- A worker runs its handler; `stack` is what `data` holds before. -/
  | work (u : Nat) (stack : Nat → UInt8)

namespace Server

/-- The thread is at `pc`. -/
def goto (s : Server) (t : Tid) (pc : Pc) : Server :=
  { s with pc := update s.pc t pc }

/-- The history goes on. -/
def note (s : Server) (notes : List Note) : Server :=
  { s with log := s.log ++ notes }

/-- The unit `u` is in the state `w`. -/
def setUnit (s : Server) (u : Nat) (w : Wunit) : Server :=
  { s with units := update s.units u w }

section Fields

variable {s : Server} {t : Tid} {pc : Pc} {notes : List Note} {u : Nat} {w : Wunit}

@[simp] theorem goto_pc : (s.goto t pc).pc = update s.pc t pc := rfl
theorem goto_pc_self : (s.goto t pc).pc t = pc := update_self _ _ _
@[simp] theorem goto_total_conns : (s.goto t pc).total_conns = s.total_conns := rfl
@[simp] theorem goto_events : (s.goto t pc).events = s.events := rfl
@[simp] theorem goto_pipe : (s.goto t pc).pipe = s.pipe := rfl
@[simp] theorem goto_backlog : (s.goto t pc).backlog = s.backlog := rfl
@[simp] theorem goto_units : (s.goto t pc).units = s.units := rfl
@[simp] theorem goto_isOpen : (s.goto t pc).isOpen = s.isOpen := rfl
@[simp] theorem goto_log : (s.goto t pc).log = s.log := rfl
@[simp] theorem note_pc : (s.note notes).pc = s.pc := rfl
@[simp] theorem note_total_conns : (s.note notes).total_conns = s.total_conns := rfl
@[simp] theorem note_events : (s.note notes).events = s.events := rfl
@[simp] theorem note_pipe : (s.note notes).pipe = s.pipe := rfl
@[simp] theorem note_backlog : (s.note notes).backlog = s.backlog := rfl
@[simp] theorem note_units : (s.note notes).units = s.units := rfl
@[simp] theorem note_isOpen : (s.note notes).isOpen = s.isOpen := rfl
@[simp] theorem setUnit_pc : (s.setUnit u w).pc = s.pc := rfl
@[simp] theorem setUnit_total_conns : (s.setUnit u w).total_conns = s.total_conns := rfl
@[simp] theorem setUnit_events : (s.setUnit u w).events = s.events := rfl
@[simp] theorem setUnit_pipe : (s.setUnit u w).pipe = s.pipe := rfl
@[simp] theorem setUnit_backlog : (s.setUnit u w).backlog = s.backlog := rfl
@[simp] theorem setUnit_units : (s.setUnit u w).units = update s.units u w := rfl
@[simp] theorem setUnit_isOpen : (s.setUnit u w).isOpen = s.isOpen := rfl
@[simp] theorem setUnit_log : (s.setUnit u w).log = s.log := rfl
@[simp] theorem note_log : (s.note notes).log = s.log ++ notes := rfl

end Fields

end Server

/-- An application callback, if it is installed. -/
def callback (cfg : Cfg) (caller : Caller) (e : EbEvent) (stream : EbStream) :
    List Note :=
  if cfg.callbacks e then [.called caller e stream] else []

/-- A callback adds nothing but its own call. -/
theorem eq_called_of_mem_callback
    {cfg : Cfg} {c : Caller} {e : EbEvent} {stream : EbStream} {x : Note}
    (hx : x ∈ callback cfg c e stream) :
    x = .called c e stream := by
  unfold callback at hx
  split at hx
  · exact List.mem_singleton.mp hx
  · cases hx

/-- The ring `wunit_init` creates: `ringq_new(1024 * 10, 1)`. -/
def factoryRing : Ringq := (ringqNew true 0 (1024 * 10) 1).get rfl

/-- The capacity of that ring. -/
def ringCap : Nat := 10240

/-- `sizeof(struct event)`. -/
def sizeofEvent : Nat := 48

/-- The server after `eb_srv_new` and `eb_srv_listen`, its threads created. -/
def ebSrvNew (cfg : Cfg) : Server :=
  { total_conns := 0
    events :=
      { pool := mpoolNew cfg.psz sizeofEvent
        ev := fun _ => { fd := 0, kide := ⟨false, false⟩, queued := false,
                         cb := none, arg := .srv }
        base := fun
          | .master => ebotNew ⟨true, false⟩
          | .reactor _ => ebotNew ⟨true, true⟩ }
    pc := fun _ => .boot
    pipe := fun _ => .empty
    backlog := .empty
    units := fun _ => { rq := factoryRing, efd := 0, waiting := false }
    isOpen := cfg.opened
    log := [] }

section Threads

variable (cfg : Cfg) (s : Server) (t : Tid)

/-- The event a thread adds before its loop. -/
def bootEvent : SrvEvent :=
  match t with
  | .master => eventRead cfg.sfd (some .ebot_srv_accept) .srv
  | .reactor i =>
      eventRead (cfg.pipeFd i) (some .reactor_pool_pipe_callback) (.reactor i)

/-- How a thread ends that gets no slab for it. -/
def bootNull : Stop :=
  match t with
  | .master => .errExit "eb_srv_start: new event error: %s" []
  | .reactor _ => .abort

/-- How a thread ends that cannot add it. -/
def bootAddFail : Stop :=
  match t with
  | .master => .errExit "server listen fd=%d event add fail" [(cfg.sfd : Nat)]
  | .reactor i =>
      .errExit "ebot base add pipe fd[%d] read event fail" [(cfg.pipeFd i : Nat)]

/-- `reactor_pool_exec` before its loop; for the master, `eb_srv_start` from
`mpool_get_with_lock` on. -/
def reactorPoolExec (ctl : Bool) : Except Stop Server := do
  let (o, events) ← s.events.getAdd t ctl (bootEvent cfg t)
  match o with
  | none => .error (bootNull t)
  | some (_, ret) =>
      if ret < 0 then .error (bootAddFail cfg t)
      else .ok ({ s with events }.goto t .idle)

/-- What `epoll_wait` may report: only what the interest set asks for, and an
edge source only when an edge is pending. -/
def mayReport (rep : Report) : Bool :=
  match (s.events.base t).epoll rep.fd with
  | none => false
  | some interest =>
      (!rep.events.epollin || interest.epollin) &&
      (!rep.events.epollout || interest.epollout) &&
      match t with
      | .master =>
          rep.fd != cfg.sfd || (rep.events.epollin && s.backlog.edge)
      | .reactor i =>
          rep.fd != cfg.pipeFd i || (rep.events.epollin && (s.pipe i).edge)

/-- One of the reports is for the descriptor. -/
def reported (reports : List Report) (fd : Nat) : Bool :=
  reports.any fun rep => rep.fd == fd

/-- `ebot_loop` up to `dispatch_events`. -/
def ebotLoop (reports : List Report) : Except Stop Server := do
  require (s.pc t = .idle)
  require (reports.length ≤ (s.events.base t).epsz)
  require (reports.map Report.fd).Nodup
  require (reports.all (mayReport cfg s t))
  let events ← s.events.collect t reports
  let backlog :=
    s.backlog.reportIf (decide (t = .master) && reported reports cfg.sfd)
  let pipe := fun i =>
    (s.pipe i).reportIf (decide (t = .reactor i) && reported reports (cfg.pipeFd i))
  .ok ({ s with events, backlog, pipe }.goto t .dispatch)

/-- One round of `dispatch_events`, up to the start of the callback.
`reacto_pool_client_write_callback` only calls the application. -/
def dispatchEvents : Except Stop Server :=
  match s.events.next t with
  | none => .ok (s.goto t .idle)
  | some (p, events) =>
      let e := events.ev p
      let s := { s with events }
      match e.callback, e.arg with
      | none, _ => .ok s
      | some .ebot_srv_accept, .srv => .ok (s.goto t .accept)
      | some .reactor_pool_pipe_callback, .reactor i => .ok (s.goto t (.pipeRead i))
      | some .reactor_pool_client_read_callback, .reactor i =>
          .ok (s.goto t (.recv i e.fd))
      | some .reacto_pool_client_write_callback, .reactor _ =>
          .ok (s.note (callback cfg (.thread t) .EB_WRITE
            (ebStream (e.fd : Nat) cfg.udata)))
      | _, _ => .error .fault

/-- `ebot_srv_accept` up to the write to the pipe. -/
def ebotSrvAccept (o : Option Fd) : Except Stop Server :=
  match o with
  | none => .ok (s.goto t .dispatch)
  | some fd =>
      match s.backlog.items with
      | [] => .error .disabled
      | _ :: rest => do
          require (s.isOpen fd = false)
          let s := { s with backlog := s.backlog.leave rest }
          if s.total_conns > cfg.setting.max_connections then
            .ok ((s.note [.rejected fd]).goto t .dispatch)
          else
            let s := { s with isOpen := update s.isOpen fd true }
            .ok ((s.note [.accepted fd]).goto t (.handOff fd))

/-- Its write to the pipe of the reactor. -/
def acceptHandOff (fd : Fd) (pipeOk : Bool) : Server :=
  let i := cfg.reactorOf fd
  let pipe := if pipeOk then update s.pipe i ((s.pipe i).arrive fd) else s.pipe
  { s with pipe }.goto t (.announce fd)

/-- Its `EB_CONNECT` callback. -/
def acceptAnnounce (fd : Fd) : Server :=
  (s.note (callback cfg (.thread t) .EB_CONNECT
    (ebStream (fd : Nat) cfg.udata))).goto t .count

/-- Its `total_conns++`; signed overflow is undefined. -/
def acceptCount : Except Stop Server :=
  if s.total_conns = 2147483647 then .error .fault
  else .ok ({ s with total_conns := s.total_conns + 1 }.goto t .dispatch)

/-- `reactor_pool_pipe_callback` up to the first `mpool_get_with_lock`. -/
def reactorPoolPipeCallback (i : Nat) : Server :=
  match (s.pipe i).items with
  | [] => s.goto t .dispatch
  | fd :: rest =>
      { s with pipe := update s.pipe i ((s.pipe i).leave rest) }.goto t
        (.opening .read i fd)

/-- Its part for one direction, up to the `mpool_put_with_lock`. -/
def pipeCallbackOpen (d : Dir) (i : Nat) (fd : Fd) (ctl : Bool) :
    Except Stop Server := do
  let (o, events) ← s.events.getAdd (.reactor i) ctl (clientEvent d fd i)
  let s := { s with events }
  match o with
  | none => .ok (s.goto t .dispatch)
  | some (p, ret) =>
      .ok (s.goto t (if ret < 0 then .undoing d i fd p else .opened i fd d))

/-- Its `mpool_put_with_lock`. -/
def pipeCallbackUndo (d : Dir) (i : Nat) (fd : Fd) (p : Nat) :
    Except Stop Server := do
  let events ← s.events.put p
  .ok ({ s with events }.goto t (.opened i fd d))

/-- `reactor_pool_client_read_callback` up to what `readn` leads to. -/
def clientReadCallback (i : Nat) (fd : Fd) (r : RecvResult) : Server :=
  (s.note [.received fd (readn r) (packed fd r)]).goto t (.received i fd r)

/-- One of the two `if`s of its close path. -/
def clientReadClose (d : Dir) (i : Nat) (fd : Fd) (ctl : Bool) :
    Except Stop Server := do
  let events ← s.events.delPut (.reactor i) ctl d fd
  .ok ({ s with events }.goto t (.closed i fd d))

/-- Its push into the ring of the unit. -/
def clientReadPush (fd : Fd) (n : Int) (d : PackData) : Except Stop Server := do
  let u := cfg.unitOf fd
  let (ret, rq) ← pushPack (s.units u).rq d
  let s := s.setUnit u { s.units u with rq }
  if ret < 0 then
    .ok ((s.note [.refused u fd n d]).goto t .dispatch)
  else
    .ok ((s.note [.pushed u fd n d]).goto t (.notify u))

/-- Its write to the `efd` of the unit. -/
def clientReadNotify (u : Nat) : Server :=
  (s.setUnit u { s.units u with efd := (s.units u).efd + 1 }).goto t .dispatch

/-- The next step of a thread. -/
def runThread (env : Env) : Except Stop Server :=
  match s.pc t with
  | .boot => reactorPoolExec cfg s t env.ctl
  | .idle => .error .disabled
  | .dispatch => dispatchEvents cfg s t
  | .accept => ebotSrvAccept cfg s t env.accepted
  | .handOff fd => .ok (acceptHandOff cfg s t fd env.pipeOk)
  | .announce fd => .ok (acceptAnnounce cfg s t fd)
  | .count => acceptCount s t
  | .pipeRead i => .ok (reactorPoolPipeCallback s t i)
  | .opening d i fd => pipeCallbackOpen s t d i fd env.ctl
  | .undoing d i fd p => pipeCallbackUndo s t d i fd p
  | .recv i fd => .ok (clientReadCallback s t i fd env.recv)
  | .closing d i fd => clientReadClose s t d i fd env.ctl
  | .pushing fd n d => clientReadPush cfg s t fd n d
  | .notify u => .ok (clientReadNotify s t u)

end Threads

/-- `eb_srv_factory_exec` of a unit; a failed pop leaves the worker in the
`read` of its `efd`. -/
def ebSrvFactoryExec (cfg : Cfg) (s : Server) (u : Nat) (stack : Nat → UInt8) :
    Except Stop Server := do
  let w := s.units u
  if w.waiting then
    require (0 < w.efd)
    .ok (s.setUnit u { w with efd := 0, waiting := false })
  else
    let (ret, rq, d) ← popPack w.rq stack
    if -1 < ret then
      let stream ← streamOf d cfg.udata
      let e : EbEvent := if stream.buf_size = 0 then .EB_CLOSE else .EB_RECV
      .ok ((s.setUnit u { w with rq }).note
        (.handled u d :: callback cfg (.worker u) e stream))
    else
      .ok (s.setUnit u { w with rq, waiting := true })

/-- One move. -/
def step (cfg : Cfg) (s : Server) : Action → Except Stop Server
  | .arrive => .ok { s with backlog := s.backlog.arrive () }
  | .wait t reports => do
      require (cfg.Runs t)
      ebotLoop cfg s t reports
  | .run t env => do
      require (cfg.Runs t)
      runThread cfg s t env
  | .work u stack => do
      require (u < cfg.num)
      ebSrvFactoryExec cfg s u stack

end Ebot
