import Ebot.Lifecycle
import Ebot.Lifetime
import Ebot.ServerMoves

/-!
# Destroying a running server

One thread is in `eb_srv_destroy` while the master, the reactors and the workers of the
server go on; any of them may take the next step.  A thread's step is that of the running
server, in its loop `while (status)` around it, and it uses memory: what it uses must
still be held.

The number of a descriptor that is closed is free again: `accept` may return it for a
connection, and others may open something under it, no epoll instance though.  A write to
a pipe whose read end alone is closed ends the process, unless it ignores `SIGPIPE`.
-/

namespace Ebot

namespace Shutdown

open Function EdgeSource EventState Ledger Transition Lifecycle

/-- The server, what the process holds, what `eb_srv_destroy` has still to do, and where
the threads are in the loops around their passes. -/
structure State where
  server : Server
  held : Holdings
  todo : List Cmd
  /-- `srv->status`. -/
  status : Int
  /-- `reactors[i].status`. -/
  reactorStatus : Nat → Int
  /-- `units[u].status`. -/
  unitStatus : Nat → Int
  /-- The thread has found its status set and is in `ebot_loop`. -/
  entered : Tid → Bool
  /-- The thread has left its loop. -/
  ended : Tid → Bool
  /-- The worker has found its status set and is in its handler. -/
  checked : Nat → Bool
  /-- The worker has left its loop. -/
  exited : Nat → Bool
  /-- `SIGPIPE` is not ignored. -/
  sigpipe : Bool

/-- A started server when `eb_srv_destroy` is called; it may be at any time, so its
threads need not have come anywhere. -/
def start (cfg : Cfg) (srv : EbSrv) (held : Holdings) (sigpipe : Bool) : State where
  server := Ebot.ebSrvNew cfg
  held
  todo := ebSrvDestroy srv
  status := 1
  reactorStatus := fun _ => 1
  unitStatus := fun _ => 1
  entered := fun _ => false
  ended := fun _ => false
  checked := fun _ => false
  exited := fun _ => false
  sigpipe

/-- Who takes the next step. -/
inductive Act where
  /-- The server and its surroundings. -/
  | serve (a : Action)
  /-- A thread reads its status. -/
  | test (t : Tid)
  /-- A worker reads its status. -/
  | check (u : Nat)
  /-- Somebody else opens a descriptor. -/
  | opens (fd : Fd)
  /-- What is read next under the number of a pipe whose read end is closed. -/
  | sent (i : Nat) (fd : Fd)
  /-- `eb_srv_destroy` goes on. -/
  | destroy

/-- The thread or the worker whose step it is. -/
def Act.actor : Act → Option Caller
  | .serve (.wait t _) | .serve (.run t _) | .test t => some (.thread t)
  | .serve (.work u _) | .check u => some (.worker u)
  | .serve .arrive | .opens _ | .sent _ _ | .destroy => none

/-- It is a step of somebody else. -/
def Act.outside : Act → Bool
  | .opens _ | .sent _ _ => true
  | _ => false

theorem Act.actor_outside
    {a : Act}
    (h : a.outside = true) :
    a.actor = none := by
  cases a with
  | opens | sent => rfl
  | _ => cases h

/-! ## The memory a step uses -/

section Uses

variable (srv : EbSrv) (s : Server)

/-- The block with the status of a thread. -/
def home : Tid → Resource
  | .master => .block srv.block
  | .reactor _ => .block srv.slave_reactor.block

/-- The blocks of the event base of a thread. -/
def baseBlocks : Tid → List Resource
  | .master => srv.master_base.blocks
  | .reactor i => (srv.slave_reactor.reactors[i]?).elim [] fun r => r.base.blocks

/-- The ring of a unit. -/
def ringBlock (u : Nat) : List Resource :=
  ((srv.factory.wp.units u).rq.map srv.factory.ringAt).toList.map .block

/-- `dispatch_events`, up to the callback; that of a writable socket reads
`srv->callbacks`. -/
def usesDispatch (t : Tid) : List Resource :=
  baseBlocks srv t ++
    match s.events.readies t with
    | [] => []
    | p :: _ =>
        .block srv.event_pool ::
          if (s.events.ev p).callback = some .reacto_pool_client_write_callback then
            [home srv t, .block srv.block]
          else []

/-- The next step of a thread. -/
def usesRun (cfg : Cfg) (t : Tid) : List Resource :=
  let rp := Resource.block srv.slave_reactor.block
  let block := Resource.block srv.block
  let pool := Resource.block srv.event_pool
  let factory := Resource.block srv.factory.block
  match s.pc t with
  | .boot => [home srv t, block, pool] ++ baseBlocks srv t
  | .idle => []
  | .dispatch => usesDispatch srv s t
  | .accept | .announce _ | .count => [block]
  | .handOff _ => [block, rp]
  | .pipeRead _ => [rp]
  | .opening _ _ _ | .closing _ _ _ => [rp, block, pool] ++ baseBlocks srv t
  | .undoing _ _ _ _ => [rp, block, pool]
  | .recv _ _ | .notify _ => [rp, block, factory]
  | .pushing fd _ _ => [rp, block, factory] ++ ringBlock srv (cfg.unitOf fd)

/-- The handler of a unit; a worker that is woken only leaves its `read`. -/
def usesWork (u : Nat) : List Resource :=
  if (s.units u).waiting then []
  else [.block srv.factory.block, .block srv.block] ++ ringBlock srv u

end Uses

/-! ## What the system does -/

/-- The descriptor an `epoll_ctl` at this place is about. -/
def ctlFd (cfg : Cfg) (t : Tid) : Pc → Option Fd
  | .boot => some (bootEvent cfg t).fd
  | .opening _ _ fd | .closing _ _ fd => some fd
  | _ => none

/-- The `epfd` of a thread. -/
def epfdOf (srv : EbSrv) : Tid → Option Fd
  | .master => some srv.master_base.epfd
  | .reactor i => (srv.slave_reactor.reactors[i]?).map fun r => r.base.epfd

/-- What `close` does to the server: the descriptor leaves all interest sets, what waits
in the pipe or the socket is lost, and an interest set goes with its `epfd`. -/
def closed (cfg : Cfg) (srv : EbSrv) (s : Server) (fd : Int) : Server :=
  { s with
    isOpen := fun n => decide (((n : Nat) : Int) ≠ fd) && s.isOpen n
    events :=
      { s.events with
        base := fun t =>
          { s.events.base t with
            epoll := fun n =>
              if (n : Int) = fd ∨ (epfdOf srv t).any fun e => ((e : Nat) : Int) = fd then none
              else (s.events.base t).epoll n } }
    pipe := fun i => if ((cfg.pipeFd i : Nat) : Int) = fd then .empty else s.pipe i
    backlog := if ((cfg.sfd : Nat) : Int) = fd then .empty else s.backlog }

namespace State

variable (cfg : Cfg) (srv : EbSrv) (c : State)

/-- The status a thread reads. -/
def statusOf : Tid → Int
  | .master => c.status
  | .reactor i => c.reactorStatus i

/-- What a step uses; a thread whose status is set goes on into `ebot_loop`, which reads
its base before it waits. -/
def uses : Act → List Resource
  | .serve .arrive | .opens _ | .sent _ _ | .destroy => []
  | .serve (.wait t reports) =>
      baseBlocks srv t ++ if reports.isEmpty then [] else [.block srv.event_pool]
  | .serve (.run t _) => usesRun srv c.server cfg t
  | .serve (.work u _) => usesWork srv c.server u
  | .test t => home srv t :: if c.statusOf t = 0 then [] else baseBlocks srv t
  | .check _ => [.block srv.factory.block]

/-- The read end of the pipe of a reactor is open. -/
def readEnd (i : Nat) : Bool :=
  (srv.slave_reactor.reactors[i]?).elim false fun r =>
    decide (.descriptor (r.pipe.1 : Nat) ∈ c.held)

/-- Its write end is. -/
def writeEnd (i : Nat) : Bool :=
  (srv.slave_reactor.reactors[i]?).elim false fun r =>
    decide (.descriptor (r.pipe.2 : Nat) ∈ c.held)

/-- Who may take the step: a thread in `ebot_loop` that has not ended, a worker in its
handler.  Nothing arrives at a socket that is closed, and `epoll_ctl` refuses a closed
descriptor.  A write reaches the pipe only where both ends are open; its result is not
looked at, whatever the number stands for by now. -/
def serves : Action → Bool
  | .arrive => c.server.isOpen cfg.sfd
  | .wait t _ => c.entered t && !c.ended t
  | .run t env =>
      !c.ended t &&
        (!env.ctl || (ctlFd cfg t (c.server.pc t)).all c.server.isOpen) &&
        match c.server.pc t with
        | .handOff fd =>
            !env.pipeOk || c.readEnd srv (cfg.reactorOf fd) && c.writeEnd srv (cfg.reactorOf fd)
        | _ => true
  | .work u _ => !c.exited u && ((c.server.units u).waiting || c.checked u)

/-- It is a write to a pipe that nobody can read any more, and ends the process. -/
def breaksPipe : Action → Bool
  | .run t _ =>
      match c.server.pc t with
      | .handOff fd =>
          c.sigpipe && !c.readEnd srv (cfg.reactorOf fd) && c.writeEnd srv (cfg.reactorOf fd)
      | _ => false
  | _ => false

/-- The step of the server is taken; a thread back from `epoll_wait` and a worker that has
run its handler read their status before the next one. -/
def served (server : Server) : Action → State
  | .wait t _ => { c with server, entered := update c.entered t false }
  | .work u _ => { c with server, checked := update c.checked u false }
  | _ => { c with server }

/-- A thread that has been waited for has left its loop. -/
def gone : PoolThread → Bool
  | .reactor i => c.ended (.reactor i)
  | .worker u => c.exited u

/-- What a command of `eb_srv_destroy` does besides to the holdings, `rest` being what
comes after it. -/
def perform (rest : List Cmd) : Cmd → State
  | .clearStatus => { c with todo := rest, status := 0 }
  | .clearReactor i => { c with todo := rest, reactorStatus := update c.reactorStatus i 0 }
  | .stopUnit u =>
      if c.unitStatus u = 0 then { c with todo := rest }
      else
        { c with
          todo := .wakeUnit u :: .stopUnit u :: rest
          unitStatus := update c.unitStatus u (c.unitStatus u - 1) }
  | .wakeUnit u =>
      { c with
        todo := rest
        server := c.server.setUnit u
          { c.server.units u with efd := (c.server.units u).efd + 0x0F } }
  | .close fd => { c with todo := rest, server := closed cfg srv c.server fd }
  | .join _ _ | .free _ | .ringqDestroy _ => { c with todo := rest }

/-- It may go on: `pthread_join` waits for its thread. -/
def returns : Cmd → Bool
  | .join th _ => c.gone th
  | _ => true

/-- The memory is there. -/
def touch (rs : List Resource) : Except Stop Unit :=
  if ∀ r ∈ rs, r ∈ c.held then .ok () else .error .fault

/-- One step. -/
def step : Act → Except Stop State
  | .serve a => do
      require (c.serves cfg srv a)
      c.touch (c.uses cfg srv (.serve a))
      if c.breaksPipe cfg srv a then
        .error .sigpipe
      else do
        let server ← Ebot.step cfg c.server a
        .ok (c.served server a)
  | .test t => do
      require (cfg.Runs t ∧ c.server.pc t = .idle ∧ c.entered t = false ∧ c.ended t = false)
      c.touch (c.uses cfg srv (.test t))
      if c.statusOf t = 0 then .ok { c with ended := update c.ended t true }
      else .ok { c with entered := update c.entered t true }
  | .check u => do
      require (u < cfg.num ∧ (c.server.units u).waiting = false ∧ c.checked u = false ∧
        c.exited u = false)
      c.touch (c.uses cfg srv (.check u))
      if c.unitStatus u = 0 then .ok { c with exited := update c.exited u true }
      else .ok { c with checked := update c.checked u true }
  | .opens fd => do
      require (c.server.isOpen fd = false)
      .ok { c with server := { c.server with isOpen := update c.server.isOpen fd true } }
  | .sent i fd => do
      require (c.readEnd srv i = false)
      .ok { c with
            server :=
              { c.server with pipe := update c.server.pipe i ((c.server.pipe i).arrive fd) } }
  | .destroy =>
      match c.todo with
      | [] => .error .disabled
      | cmd :: rest => do
          require (c.returns cmd)
          let held ← cmd.exec c.held
          .ok { c.perform cfg srv rest cmd with held }

/-- The close path of the server removes only events that are not queued, and the kernel
does not refuse. -/
def ClosesUnqueued : Act → Prop
  | .serve a => Ebot.ClosesUnqueued c.server a
  | _ => True

instance (c : State) : DecidablePred c.ClosesUnqueued
  | .serve a => inferInstanceAs (Decidable (Ebot.ClosesUnqueued c.server a))
  | .test _ | .check _ | .opens _ | .sent _ _ | .destroy => inferInstanceAs (Decidable True)

end State

/-! ## Everything one step can do -/

section Inversion

variable {cfg : Cfg} {srv : EbSrv} {c c' : State}

theorem State.touch_eq_ok
    {rs : List Resource} {u : Unit} :
    c.touch rs = .ok u ↔ ∀ r ∈ rs, r ∈ c.held := by
  unfold State.touch
  split
  · simp_all
  · simp_all

/-- A step, one constructor for each kind. -/
inductive Turn (cfg : Cfg) (srv : EbSrv) (c : State) : Act → State → Prop
  | served {a : Action} {server : Server} :
      c.serves cfg srv a = true → Ebot.step cfg c.server a = .ok server →
      Turn cfg srv c (.serve a) (c.served server a)
  | ended {t : Tid} :
      cfg.Runs t → c.server.pc t = .idle → c.entered t = false → c.ended t = false →
      c.statusOf t = 0 →
      Turn cfg srv c (.test t) { c with ended := update c.ended t true }
  | entered {t : Tid} :
      cfg.Runs t → c.server.pc t = .idle → c.entered t = false → c.ended t = false →
      c.statusOf t ≠ 0 →
      Turn cfg srv c (.test t) { c with entered := update c.entered t true }
  | exited {u : Nat} :
      u < cfg.num → (c.server.units u).waiting = false → c.checked u = false →
      c.exited u = false → c.unitStatus u = 0 →
      Turn cfg srv c (.check u) { c with exited := update c.exited u true }
  | checked {u : Nat} :
      u < cfg.num → (c.server.units u).waiting = false → c.checked u = false →
      c.exited u = false → c.unitStatus u ≠ 0 →
      Turn cfg srv c (.check u) { c with checked := update c.checked u true }
  | outside {a : Act} {server : Server} :
      a.outside = true → server.pc = c.server.pc → server.events = c.server.events →
      server.units = c.server.units →
      Turn cfg srv c a { c with server }
  | destroyed {cmd : Cmd} {rest : List Cmd} {held : Holdings} :
      c.todo = cmd :: rest → c.returns cmd = true → cmd.exec c.held = .ok held →
      Turn cfg srv c .destroy { c.perform cfg srv rest cmd with held }

theorem step_turn
    {a : Act}
    (h : c.step cfg srv a = .ok c') :
    Turn cfg srv c a c' := by
  cases a with
  | serve a =>
      obtain ⟨_, hserves, h⟩ := bind_eq_ok.mp h
      obtain ⟨_, -, h⟩ := bind_eq_ok.mp h
      split at h
      · cases h
      · obtain ⟨server, hstep, h⟩ := bind_eq_ok.mp h
        cases h
        exact .served (require_eq_ok.mp hserves) hstep
  | test t =>
      obtain ⟨_, hreq, h⟩ := bind_eq_ok.mp h
      obtain ⟨_, -, h⟩ := bind_eq_ok.mp h
      obtain ⟨hrun, hpc, hentered, hended⟩ := require_eq_ok.mp hreq
      split at h
      · rename_i hstatus
        cases h
        exact .ended hrun hpc hentered hended hstatus
      · rename_i hstatus
        cases h
        exact .entered hrun hpc hentered hended hstatus
  | check u =>
      obtain ⟨_, hreq, h⟩ := bind_eq_ok.mp h
      obtain ⟨_, -, h⟩ := bind_eq_ok.mp h
      obtain ⟨hu, hwaiting, hchecked, hexited⟩ := require_eq_ok.mp hreq
      split at h
      · rename_i hstatus
        cases h
        exact .exited hu hwaiting hchecked hexited hstatus
      · rename_i hstatus
        cases h
        exact .checked hu hwaiting hchecked hexited hstatus
  | opens fd =>
      obtain ⟨_, -, h⟩ := bind_eq_ok.mp h
      cases h
      exact .outside rfl rfl rfl rfl
  | sent i fd =>
      obtain ⟨_, -, h⟩ := bind_eq_ok.mp h
      cases h
      exact .outside rfl rfl rfl rfl
  | destroy =>
      unfold State.step at h
      cases htodo : c.todo with
      | nil =>
          rw [htodo] at h
          cases h
      | cons cmd rest =>
          rw [htodo] at h
          obtain ⟨_, hreturns, h⟩ := bind_eq_ok.mp h
          obtain ⟨held, hexec, h⟩ := bind_eq_ok.mp h
          cases h
          exact .destroyed htodo (require_eq_ok.mp hreturns) hexec

/-- What a command leaves alone. -/
theorem State.perform_frame
    (cfg : Cfg) (srv : EbSrv) (c : State) (rest : List Cmd) (cmd : Cmd) :
    (c.perform cfg srv rest cmd).ended = c.ended ∧
      (c.perform cfg srv rest cmd).entered = c.entered ∧
      (c.perform cfg srv rest cmd).exited = c.exited ∧
      (c.perform cfg srv rest cmd).checked = c.checked ∧
      (c.perform cfg srv rest cmd).server.pc = c.server.pc ∧
      (c.perform cfg srv rest cmd).server.events.readies = c.server.events.readies := by
  cases cmd with
  | stopUnit u =>
      by_cases hu : c.unitStatus u = 0
      · simp [State.perform, hu]
      · simp [State.perform, hu]
  | _ => exact ⟨rfl, rfl, rfl, rfl, rfl, rfl⟩

theorem update_true_mono
    {α : Type} [DecidableEq α] {f : α → Bool} {x y : α}
    (h : f y = true) :
    update f x true y = true := by
  by_cases he : y = x
  · rw [he, update_self]
  · rwa [update_of_ne he]

/-- A thread that has left its loop does not come back. -/
theorem Turn.ended_mono
    {a : Act} {t : Tid}
    (h : Turn cfg srv c a c')
    (hended : c.ended t = true) :
    c'.ended t = true := by
  cases h with
  | @served a =>
      cases a with
      | _ => exact hended
  | ended => exact update_true_mono hended
  | entered => exact hended
  | exited => exact hended
  | checked => exact hended
  | outside => exact hended
  | @destroyed cmd rest held =>
      exact (congrFun (c.perform_frame cfg srv rest cmd).1 t).trans hended

theorem Turn.over_mono
    {a : Act} {th : PoolThread}
    (h : Turn cfg srv c a c')
    (hgone : c.gone th = true) :
    c'.gone th = true := by
  cases th with
  | reactor i => exact h.ended_mono hgone
  | worker u =>
      cases h with
      | @served a =>
          cases a with
          | _ => exact hgone
      | ended => exact hgone
      | entered => exact hgone
      | exited => exact update_true_mono hgone
      | checked => exact hgone
      | outside => exact hgone
      | @destroyed cmd rest held =>
          exact (congrFun (c.perform_frame cfg srv rest cmd).2.2.1 u).trans hgone

end Inversion

/-! ## Nothing is freed under a thread -/

/-- The commands of `eb_srv_destroy` up to the last `pthread_join`. -/
def stops (srv : EbSrv) : List Cmd :=
  [.clearStatus] ++ (reactorPoolStop 0 srv.slave_reactor.reactors ++ wpoolStop srv.factory)

/-- What comes after them. -/
def frees (srv : EbSrv) : List Cmd :=
  reactorPoolDestroy srv.slave_reactor ++ Lifecycle.wpoolDestory srv.factory ++
    mpoolDestroy srv.event_pool ++ [.close (srv.sfd : Nat)] ++
    Lifecycle.ebotDestroy srv.master_base ++ [.free (some srv.block)]

/-- It frees no memory. -/
def KeepsBlocks (cmd : Cmd) : Prop := ∀ p, .block p ∉ cmd.releases

/-- Nothing of the server has been freed. -/
def Intact (srv : EbSrv) (held : Holdings) : Prop :=
  ∀ p, .block p ∈ srv.owned → .block p ∈ held

/-- A thread of the pools. -/
def InPool (srv : EbSrv) : PoolThread → Prop
  | .reactor i => i < srv.slave_reactor.reactors.length
  | .worker u => u < srv.factory.wp.num.toNat

/-- Either all threads of the pools have been waited for, or nothing has been freed and
the joins that are missing come before anything is. -/
def Joining (srv : EbSrv) (c : State) : Prop :=
  (∀ th, InPool srv th → c.gone th = true) ∨
    ∃ pre, c.todo = pre ++ frees srv ∧ (∀ cmd ∈ pre, KeepsBlocks cmd) ∧
      (∀ th, InPool srv th → c.gone th = true ∨ ∃ tid, .join th tid ∈ pre) ∧
      Intact srv c.held

section Joining

variable {cfg : Cfg} {srv : EbSrv} {c c' : State} {a : Act} {rs : List Reactor} {i n : Nat}

theorem Intact.exec
    {cmd : Cmd} {held held' : Holdings}
    (h : Intact srv held)
    (hkeeps : KeepsBlocks cmd)
    (hexec : cmd.exec held = .ok held') :
    Intact srv held' := by
  intro p hp
  rw [(Cmd.exec_ok hexec).2, Finset.mem_sdiff, List.mem_toFinset]
  exact ⟨h p hp, hkeeps p⟩

theorem reactorPoolStop_keepsBlocks
    (i : Nat) (rs : List Reactor) :
    ∀ cmd ∈ reactorPoolStop i rs, KeepsBlocks cmd := by
  induction rs generalizing i with
  | nil => exact fun _ h => absurd h List.not_mem_nil
  | cons r rs ih =>
      unfold reactorPoolStop
      rw [List.forall_mem_append]
      refine ⟨?_, ih (i + 1)⟩
      simp [KeepsBlocks, Cmd.releases]

theorem stopUnits_keepsBlocks
    (tid : Nat → Option Nat) (i n : Nat) :
    ∀ cmd ∈ stopUnits tid i n, KeepsBlocks cmd := by
  induction n generalizing i with
  | zero => exact fun _ h => absurd h List.not_mem_nil
  | succ n ih =>
      unfold stopUnits
      cases tid i with
      | none => exact fun _ h => absurd h List.not_mem_nil
      | some t =>
          rw [List.forall_mem_cons, List.forall_mem_cons]
          refine ⟨?_, ?_, ih (i + 1)⟩
          · simp [KeepsBlocks, Cmd.releases]
          · simp [KeepsBlocks, Cmd.releases]

/-- Every reactor is told to end, and joined. -/
theorem mem_reactorPoolStop
    {j : Nat}
    (hj : j < rs.length) :
    .clearReactor (i + j) ∈ reactorPoolStop i rs ∧
      ∃ tid, .join (.reactor (i + j)) tid ∈ reactorPoolStop i rs := by
  induction rs generalizing i j with
  | nil => cases hj
  | cons r rs ih =>
      unfold reactorPoolStop
      cases j with
      | zero => exact ⟨by simp, r.tid, by simp⟩
      | succ j =>
          obtain ⟨hclear, tid, hjoin⟩ := ih (i := i + 1) (Nat.lt_of_succ_lt_succ hj)
          have hindex : i + 1 + j = i + (j + 1) := by omega
          rw [hindex] at hclear hjoin
          exact ⟨List.mem_append_right _ hclear, tid, List.mem_append_right _ hjoin⟩

/-- Where all units have a thread, so is every worker. -/
theorem mem_stopUnits
    {tid : Nat → Option Nat} {u : Nat}
    (hsome : ∀ v, i ≤ v → v < i + n → (tid v).isSome = true)
    (hu : i ≤ u ∧ u < i + n) :
    .stopUnit u ∈ stopUnits tid i n ∧ ∃ t, .join (.worker u) t ∈ stopUnits tid i n := by
  induction n generalizing i with
  | zero => omega
  | succ n ih =>
      unfold stopUnits
      obtain ⟨t, ht⟩ := Option.isSome_iff_exists.mp (hsome i le_rfl (by omega))
      rw [ht]
      by_cases hui : u = i
      · subst hui
        exact ⟨by simp, some t, by simp⟩
      · obtain ⟨hstop, t', hjoin⟩ := ih (i := i + 1)
          (fun v hv hlt => hsome v (by omega) (by omega)) ⟨by omega, by omega⟩
        exact ⟨List.mem_cons_of_mem _ (List.mem_cons_of_mem _ hstop), t',
          List.mem_cons_of_mem _ (List.mem_cons_of_mem _ hjoin)⟩

/-- One step. -/
theorem Joining.step
    (h : Joining srv c)
    (hturn : Turn cfg srv c a c') :
    Joining srv c' := by
  rcases h with hgone | ⟨pre, htodo, hkeeps, hjoins, hintact⟩
  · exact .inl fun th hth => hturn.over_mono (hgone th hth)
  · have hmono : ∀ th, c.gone th = true → c'.gone th = true := fun th => hturn.over_mono
    -- steps of the others leave `todo` and the holdings alone
    have hother : c'.todo = c.todo → c'.held = c.held → Joining srv c' := by
      intro htodo' hheld
      refine .inr ⟨pre, htodo'.trans htodo, hkeeps, fun th hth => ?_, hheld ▸ hintact⟩
      exact (hjoins th hth).imp_left (hmono th)
    cases hturn with
    | @served a =>
        cases a with
        | _ => exact hother rfl rfl
    | ended => exact hother rfl rfl
    | entered => exact hother rfl rfl
    | exited => exact hother rfl rfl
    | checked => exact hother rfl rfl
    | outside => exact hother rfl rfl
    | @destroyed cmd rest held hhead hreturns hexec =>
        cases pre with
        | nil =>
            refine .inl fun th hth => hmono th ?_
            refine (hjoins th hth).resolve_right ?_
            rintro ⟨_, hmem⟩
            cases hmem
        | cons cmd' pre =>
            obtain ⟨rfl, rfl⟩ : cmd = cmd' ∧ rest = pre ++ frees srv := by
              rw [htodo] at hhead
              simpa [eq_comm] using hhead
            obtain ⟨hcmd, hrest⟩ := List.forall_mem_cons.mp hkeeps
            have hintact' := hintact.exec hcmd hexec
            have hgone : ∀ th, InPool srv th →
                c.gone th = true ∨ ∃ tid, .join th tid ∈ pre := by
              intro th hth
              rcases hjoins th hth with hgone | ⟨tid, hmem⟩
              · exact .inl hgone
              · rcases List.mem_cons.mp hmem with rfl | hmem
                · exact .inl hreturns
                · exact .inr ⟨tid, hmem⟩
            right
            by_cases hloop : ∃ u, cmd = .stopUnit u ∧ c.unitStatus u ≠ 0
            · obtain ⟨u, rfl, hu⟩ := hloop
              refine ⟨.wakeUnit u :: .stopUnit u :: pre, ?_, ?_, fun th hth => ?_, hintact'⟩
              · simp [State.perform, hu]
              · exact List.forall_mem_cons.mpr ⟨by simp [KeepsBlocks, Cmd.releases], hkeeps⟩
              · exact (hgone th hth).imp (hmono th) (Exists.imp fun tid hmem =>
                  List.mem_cons_of_mem _ (List.mem_cons_of_mem _ hmem))
            · have hleft := fun th hth => (hgone th hth).imp_left (hmono th)
              refine ⟨pre, ?_, hrest, hleft, hintact'⟩
              cases cmd with
              | stopUnit u =>
                  have hu : c.unitStatus u = 0 := by
                    by_contra hne
                    exact hloop ⟨u, rfl, hne⟩
                  simp [State.perform, hu]
              | _ => rfl

end Joining

/-- A block of the server. -/
def OwnBlock (srv : EbSrv) (r : Resource) : Prop :=
  ∃ p, r = .block p ∧ .block p ∈ srv.owned

section Own

variable {cfg : Cfg} {env : SrvEnv} {threads : StartEnv} {before held : Holdings} {srv : EbSrv}
variable {c c' : State} {a : Act} {s : Server} {t : Tid} {u : Nat}

theorem ownBlock_self (srv : EbSrv) : OwnBlock srv (.block srv.block) :=
  ⟨_, rfl, by simp [EbSrv.owned]⟩

theorem ownBlock_pool (srv : EbSrv) : OwnBlock srv (.block srv.event_pool) :=
  ⟨_, rfl, by simp [EbSrv.owned]⟩

theorem ownBlock_reactors (srv : EbSrv) : OwnBlock srv (.block srv.slave_reactor.block) :=
  ⟨_, rfl, by simp [EbSrv.owned, ReactorPool.owned]⟩

theorem ownBlock_factory (srv : EbSrv) : OwnBlock srv (.block srv.factory.block) :=
  ⟨_, rfl, by simp [EbSrv.owned, Factory.owned]⟩

theorem ownBlock_home
    (srv : EbSrv) (t : Tid) :
    OwnBlock srv (home srv t) := by
  cases t with
  | master => exact ownBlock_self srv
  | reactor i => exact ownBlock_reactors srv

theorem ownBlock_base
    (srv : EbSrv) (t : Tid) :
    ∀ r ∈ baseBlocks srv t, OwnBlock srv r := by
  have hblock : ∀ {b : EbotBlocks}, ∀ r ∈ b.blocks, ∃ p, r = .block p := by
    intro b r hr
    obtain ⟨p, -, rfl⟩ := List.mem_map.mp hr
    exact ⟨p, rfl⟩
  cases t with
  | master =>
      intro r hr
      obtain ⟨p, rfl⟩ := hblock r hr
      have hmem : .block p ∈ srv.master_base.blocks := hr
      exact ⟨p, rfl, by simp [EbSrv.owned, EbotBlocks.owned, hmem]⟩
  | reactor i =>
      intro r hr
      dsimp only [baseBlocks] at hr
      cases hi : srv.slave_reactor.reactors[i]? with
      | none =>
          rw [hi] at hr
          cases hr
      | some reactor =>
          rw [hi] at hr
          obtain ⟨p, rfl⟩ := hblock r hr
          have hmem : .block p ∈ srv.slave_reactor.reactors.flatMap Reactor.owned := by
            refine List.mem_flatMap.mpr ⟨reactor, List.mem_of_getElem? hi, ?_⟩
            exact List.mem_append_left _ (List.mem_append_left _ hr)
          exact ⟨p, rfl, by simp [EbSrv.owned, ReactorPool.owned, hmem]⟩

theorem ownBlock_ring
    (h : Started env threads before srv held)
    (u : Nat) :
    ∀ r ∈ ringBlock srv u, OwnBlock srv r := by
  intro r hr
  unfold ringBlock at hr
  by_cases hu : u < srv.factory.wp.num.toNat
  · rw [h.whole.built.units u hu] at hr
    obtain rfl : r = .block (srv.factory.ringAt u) := by simpa using hr
    have hlt : u < srv.factory.made.rings.length := by
      rw [h.whole.built.rings]
      exact hu
    refine ⟨_, rfl, ?_⟩
    simp only [EbSrv.owned, Factory.owned, List.mem_append, List.mem_cons, List.mem_map,
      List.mem_range]
    exact .inr (.inr (.inr ⟨u, hlt, rfl⟩))
  · rw [h.whole.built.rest u (by omega)] at hr
    cases hr

/-- What a step uses are blocks of the server. -/
theorem ownBlock_uses
    (h : Started env threads before srv held)
    (a : Act) :
    ∀ r ∈ c.uses cfg srv a, OwnBlock srv r := by
  intro r hr
  have hbase := fun t => ownBlock_base srv t r
  have hring := fun u => ownBlock_ring h u r
  have hhome := ownBlock_home srv
  have hself := ownBlock_self srv
  have hpool := ownBlock_pool srv
  have hreactors := ownBlock_reactors srv
  have hfactory := ownBlock_factory srv
  cases a with
  | serve a =>
      cases a with
      | arrive => cases hr
      | wait t reports =>
          rcases List.mem_append.mp hr with hr | hr
          · exact hbase t hr
          · split at hr
            · cases hr
            · rwa [List.mem_singleton.mp hr]
      | run t env =>
          have hr' : r ∈ usesRun srv c.server cfg t := hr
          unfold usesRun at hr'
          cases hpc : c.server.pc t with
          | dispatch =>
              rw [hpc] at hr'
              rcases List.mem_append.mp hr' with hr' | hr'
              · exact hbase t hr'
              · split at hr'
                · cases hr'
                · rcases List.mem_cons.mp hr' with rfl | hr'
                  · exact hpool
                  · split at hr'
                    · rcases List.mem_cons.mp hr' with rfl | hr'
                      · exact hhome t
                      · rwa [List.mem_singleton.mp hr']
                    · cases hr'
          | idle =>
              rw [hpc] at hr'
              cases hr'
          | _ =>
              rw [hpc] at hr'
              simp only [List.mem_append, List.mem_cons, List.not_mem_nil, or_false] at hr'
              grind
      | work u stack =>
          have hr' : r ∈ usesWork srv c.server u := hr
          unfold usesWork at hr'
          split at hr'
          · cases hr'
          · simp only [List.mem_append, List.mem_cons, List.not_mem_nil, or_false] at hr'
            grind
  | test t =>
      rcases List.mem_cons.mp hr with rfl | hr
      · exact hhome t
      · split at hr
        · cases hr
        · exact hbase t hr
  | check u => rwa [List.mem_singleton.mp hr]
  | opens fd => cases hr
  | sent i fd => cases hr
  | destroy => cases hr

end Own

section Safe

variable {cfg : Cfg} {env : SrvEnv} {threads : StartEnv} {before held : Holdings} {srv : EbSrv}
variable {good : State → Act → Prop} {c c' : State} {a : Act} {sigpipe : Bool}

/-- Every thread was created. -/
def Complete (threads : StartEnv) (srv : EbSrv) : Prop :=
  (∀ i, i < srv.slave_reactor.reactors.length → (threads.reactor i).thread.isSome = true) ∧
    ∀ u, u < srv.factory.wp.num.toNat → (threads.unit u).thread.isSome = true

/-- Then the field `tid` has it. -/
theorem tid_eq_thread
    {creation : Creation}
    (h : creation.thread.isSome = true) :
    creation.tid = creation.thread := by
  cases creation with
  | created t => rfl
  | failed left => cases h

theorem Complete.leavesNull
    (hall : Complete threads srv) :
    threads.LeavesNull srv.slave_reactor.reactors.length srv.factory.wp.num.toNat :=
  ⟨fun i hi => tid_eq_thread (hall.1 i hi), fun u hu => tid_eq_thread (hall.2 u hu)⟩

theorem Complete.joinable
    (hall : Complete threads srv) :
    threads.Joinable srv.slave_reactor.reactors.length srv.factory.wp.num.toNat :=
  ⟨hall.1, fun u _ huv hv _ => hall.2 u (by omega)⟩

/-- Every thread of the pools is told to end and joined, before anything is freed. -/
theorem mem_stops
    (h : Started env threads before srv held)
    (hall : Complete threads srv) :
    (∀ i, i < srv.slave_reactor.reactors.length → .clearReactor i ∈ stops srv) ∧
      (∀ u, u < srv.factory.wp.num.toNat → .stopUnit u ∈ stops srv) ∧
        ∀ th, InPool srv th → ∃ tid, .join th tid ∈ stops srv := by
  unfold stops
  rw [h.wpoolStop_eq]
  have hreactor := fun i (hi : i < srv.slave_reactor.reactors.length) =>
    mem_reactorPoolStop (i := 0) hi
  have hunits := fun u (hu : u < srv.factory.wp.num.toNat) =>
    (congrArg Option.isSome (tid_eq_thread (hall.2 u hu))).trans (hall.2 u hu)
  have hunit : ∀ u, u < srv.factory.wp.num.toNat →
      .stopUnit u ∈ stopUnits (fun u => (threads.unit u).tid) 0 srv.factory.wp.num.toNat ∧
        ∃ t, .join (.worker u) t ∈
          stopUnits (fun u => (threads.unit u).tid) 0 srv.factory.wp.num.toNat :=
    fun u hu => mem_stopUnits (fun v _ hv => hunits v (by omega)) ⟨Nat.zero_le u, by omega⟩
  refine ⟨fun i hi => ?_, fun u hu => ?_, fun th hth => ?_⟩
  · have hmem := (hreactor i hi).1
    rw [Nat.zero_add] at hmem
    simp [hmem]
  · simp [(hunit u hu).1]
  · cases th with
    | reactor i =>
        obtain ⟨tid, hmem⟩ := (hreactor i hth).2
        rw [Nat.zero_add] at hmem
        exact ⟨tid, by simp [hmem]⟩
    | worker u =>
        obtain ⟨tid, hmem⟩ := (hunit u hth).2
        exact ⟨tid, by simp [hmem]⟩

theorem joining_start
    (h : Started env threads before srv held)
    (hall : Complete threads srv) :
    Joining srv (start cfg srv held sigpipe) := by
  refine .inr ⟨stops srv, rfl, ?_, fun th hth => .inr ((mem_stops h hall).2.2 th hth),
    fun p hp => mem_of_run_acquire h.acquired (by simp [hp])⟩
  unfold stops
  rw [h.wpoolStop_eq, List.forall_mem_append, List.forall_mem_append]
  refine ⟨?_, reactorPoolStop_keepsBlocks _ _, stopUnits_keepsBlocks _ _ _⟩
  simp [KeepsBlocks, Cmd.releases]

theorem joining_of_reach
    (h : Started env threads before srv held)
    (hall : Complete threads srv)
    (hreach : Reach (State.step cfg srv) good (start cfg srv held sigpipe) c) :
    Joining srv c :=
  hreach.invariant (joining_start h hall) fun _ _ _ hj _ hstep => hj.step (step_turn hstep)

/-- The step of `eb_srv_destroy` frees memory only when the master has left its loop. -/
def WaitsForMaster (c : State) (a : Act) : Prop :=
  a = .destroy → ∀ cmd ∈ c.todo.head?, KeepsBlocks cmd ∨ c.ended .master = true

/-- In runs of such steps the memory stays until the master has left its loop. -/
theorem intact_of_reach
    (h : Started env threads before srv held)
    (hgood : ∀ c a, good c a → WaitsForMaster c a)
    (hreach : Reach (State.step cfg srv) good (start cfg srv held sigpipe) c) :
    c.ended .master = true ∨ Intact srv c.held := by
  refine hreach.invariant (I := fun c => c.ended .master = true ∨ Intact srv c.held)
    (.inr fun p hp => mem_of_run_acquire h.acquired (by simp [hp])) ?_
  intro c a c' hc ha hstep
  have hturn := step_turn hstep
  rcases hc with hended | hintact
  · exact .inl (hturn.ended_mono hended)
  · cases hturn with
    | @served a =>
        cases a with
        | _ => exact .inr hintact
    | ended => exact .inr hintact
    | entered => exact .inr hintact
    | exited => exact .inr hintact
    | checked => exact .inr hintact
    | outside => exact .inr hintact
    | @destroyed cmd rest held htodo hreturns hexec =>
        rcases hgood c _ ha rfl cmd (by rw [htodo]; rfl) with hkeeps | hended
        · exact .inr (hintact.exec hkeeps hexec)
        · exact .inl ((congrFun (c.perform_frame cfg srv rest cmd).1 _).trans hended)

/-- A thread or a worker of the server that has not left its loop. -/
def State.active (srv : EbSrv) (c : State) : Caller → Prop
  | .thread .master => c.ended .master = false
  | .thread (.reactor i) => i < srv.slave_reactor.reactors.length ∧ c.ended (.reactor i) = false
  | .worker u => u < srv.factory.wp.num.toNat ∧ c.exited u = false

/-- Under a thread of the pools nothing is freed. -/
theorem Joining.intact
    (h : Joining srv c)
    (th : PoolThread)
    (hth : InPool srv th)
    (hgone : c.gone th = false) :
    Intact srv c.held := by
  rcases h with hall | ⟨_, -, -, -, hintact⟩
  · rw [hall th hth] at hgone
    cases hgone
  · exact hintact

/-- What `eb_srv_destroy` has still to do leads from the present holdings to those before
the server. -/
theorem todo_of_reach
    (h : Started env threads before srv held)
    (hzero : .descriptor 0 ∈ before)
    (hall : Complete threads srv)
    (hreach : Reach (State.step cfg srv) good (start cfg srv held sigpipe) c) :
    run Cmd.exec c.held c.todo = .ok before := by
  refine hreach.invariant (I := fun c => run Cmd.exec c.held c.todo = .ok before)
    (h.run_destroy hzero ((h.joined_iff hall.leavesNull).mpr hall.joinable)) ?_
  intro c a c' hrun _ hstep
  cases step_turn hstep with
  | @served a =>
      cases a with
      | _ => exact hrun
  | ended => exact hrun
  | entered => exact hrun
  | exited => exact hrun
  | checked => exact hrun
  | outside => exact hrun
  | @destroyed cmd rest held' htodo hreturns hexec =>
      rw [htodo] at hrun
      obtain ⟨held₁, hfirst, hrest⟩ := run_cons_success hrun
      cases hfirst.symm.trans hexec
      cases cmd with
      | stopUnit u =>
          by_cases hu : c.unitStatus u = 0
          · simpa [State.perform, hu] using hrest
          · cases hexec
            simpa [State.perform, hu, run, Cmd.exec] using hrest
      | _ => exact hrest

end Safe

/-- The small server and what it holds. -/
def Small.running : EbSrv × Holdings := Small.life.toOption.get (by decide +kernel)

theorem Small.started :
    Started Small.srvEnv Small.threads {.descriptor 0} Small.running.1 Small.running.2 := by
  obtain ⟨_, _, _, _, o, hnew, hlisten, hstart, hlife⟩ := Small.exists_life
  have ho : Small.running = o := by simp [Small.running, hlife, Except.toOption]
  rw [ho]
  exact Lifecycle.started hnew hlisten hstart

/-- One step of the shutdown of the small server, all callbacks installed. -/
def Small.turn : State → Act → Except Stop State :=
  guarded (State.step (Small.started.cfg (fun _ => true) 0) Small.running.1)
    State.ClosesUnqueued .disabled

/-- `eb_srv_destroy` is called on it. -/
def Small.called : State :=
  start (Small.started.cfg (fun _ => true) 0) Small.running.1 Small.running.2 true

/-- The master is reported a connection, and the reactor is in `epoll_wait`, when
`eb_srv_destroy` has closed the pipe and comes to join the reactor. -/
def Small.toJoin : List Act :=
  [.serve (.run (.reactor 0) Small.env), .test (.reactor 0), .serve (.run .master Small.env),
    .test .master, .serve .arrive, .serve (.wait .master [Small.epollin 8]),
    .serve (.run .master Small.env), .destroy, .destroy, .destroy, .destroy]

/-- `accept` returns the number of the read end of the pipe; the master leaves its loop. -/
def Small.reuse : List Act :=
  [.serve (.run .master { Small.env with accepted := some 5 }),
    .serve (.run .master { Small.env with pipeOk := false }), .serve (.run .master Small.env),
    .serve (.run .master Small.env), .serve (.run .master Small.env), .test .master]

/-- The reactor leaves its loop, then the worker. -/
def Small.toEnd : List Act :=
  [.serve (.wait (.reactor 0) []), .serve (.run (.reactor 0) Small.env), .test (.reactor 0),
    .destroy, .check 0, .destroy, Act.serve Small.worker, .destroy, Act.serve Small.worker,
    .check 0] ++ List.replicate 19 .destroy

theorem Small.complete : Complete Small.threads Small.running.1 :=
  ⟨fun _ _ => rfl, fun _ _ => rfl⟩

end Shutdown

end Ebot
