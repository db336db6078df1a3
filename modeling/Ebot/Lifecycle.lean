import Ebot.Library.Ledger
import Ebot.Server
import Ebot.Wpool

/-!
# Building and destroying a server

`ebot_new`, `reactor_pool_new`, `eb_srv_new`, `eb_srv_listen`, the part of
`eb_srv_start` that creates the threads, and `eb_srv_destroy` with everything it
calls, as what they acquire from the system and give back to it: blocks of memory,
descriptors and threads.

The system's answers are arbitrary, but it never hands out what is in use.  Freeing a
block that is not held is undefined; closing a descriptor that is not held has no
effect.
-/

namespace Ebot

namespace Lifecycle

open Ledger Transition Words

/-- What a process can hold. -/
inductive Resource where
  /-- A block of memory, by its address. -/
  | block (p : Nat)
  /-- An open descriptor. -/
  | descriptor (fd : Int)
  /-- A thread that nobody has joined, by its `pthread_t`. -/
  | thread (tid : Nat)
deriving DecidableEq

/-- What the process holds. -/
abbrev Holdings := Finset Resource

/-- The system hands something out. -/
abbrev obtained (held : Holdings) (r : Resource) : Except Stop Holdings :=
  acquire .disabled held r

/-- `free`; of `NULL` it does nothing. -/
def free (held : Holdings) : Option Nat → Except Stop Holdings
  | none => .ok held
  | some p => release .fault held (.block p)

/-! ## Event bases -/

/-- `E_READ`. -/
def E_READ : UInt32 := 0x01

/-- `E_WRITE`. -/
def E_WRITE : UInt32 := 0x02

/-- The answers of `malloc`, `epoll_create` and `fcntl` in one `ebot_new`. -/
structure BaseEnv where
  base : Option Nat
  epevents : Option Nat
  read_waits : Option Nat
  write_waits : Option Nat
  epfd : Option Fd
  cloexec : Int

/-- The blocks and the descriptor of a `struct ebot_base`; before they are there, the
pointers are `NULL`. -/
structure EbotBlocks where
  base : Nat
  epevents : Option Nat
  read_waits : Option Nat
  write_waits : Option Nat
  epfd : Fd

/-- Its blocks, in the order in which `ebot_new` allocates them. -/
def EbotBlocks.blocks (b : EbotBlocks) : List Resource :=
  (b.base :: (b.epevents.toList ++ b.read_waits.toList ++ b.write_waits.toList)).map .block

/-- Everything a complete base holds. -/
def EbotBlocks.owned (b : EbotBlocks) : List Resource :=
  b.blocks ++ [.descriptor (b.epfd : Nat)]

/-- The end of `ebot_new` at its label `err`, with a `base`. -/
def ebotNewErr (base : EbotBlocks) (held : Holdings) :
    Except Stop (Option EbotBlocks × Holdings) := do
  let held ← free held base.epevents
  let held ← free held base.read_waits
  let held ← free held base.write_waits
  let held ← free held (some base.base)
  .ok (none, held)

/-- `ebot_new`: the base, or `none` for `NULL`.  Its first two ways to `err` come there
without a `base`: one before it is set, the other with `NULL`. -/
def ebotNew (env : BaseEnv) (kides : UInt32) (held : Holdings) :
    Except Stop (Option EbotBlocks × Holdings) :=
  if (E_READ ||| E_WRITE) &&& kides ≠ kides then
    .error .fault
  else
    match env.base with
    | none => .error .fault
    | some p => do
        let held ← obtained held (.block p)
        let base : EbotBlocks := ⟨p, none, none, none, 0⟩
        match env.epevents with
        | none => ebotNewErr base held
        | some p => do
            let held ← obtained held (.block p)
            let base := { base with epevents := some p }
            match env.read_waits with
            | none => ebotNewErr base held
            | some p => do
                let held ← obtained held (.block p)
                let base := { base with read_waits := some p }
                match env.write_waits with
                | none => ebotNewErr base held
                | some p => do
                    let held ← obtained held (.block p)
                    let base := { base with write_waits := some p }
                    match env.epfd with
                    | none => ebotNewErr base held
                    | some epfd => do
                        let held ← obtained held (.descriptor (epfd : Nat))
                        if env.cloexec = -1 then
                          .error (.errExit "fcntl set error: %s" [])
                        else
                          .ok (some { base with epfd }, held)

section Base

variable {env : BaseEnv} {kides : UInt32} {held held' : Holdings} {b : EbotBlocks}

theorem free_eq_run
    (held : Holdings) (o : Option Nat) :
    free held o = run (release Stop.fault) held (o.toList.map .block) := by
  cases o with
  | none => rfl
  | some p =>
      dsimp only [free, Option.toList, List.map, run]
      cases release Stop.fault held (.block p) <;> rfl

/-- Giving up takes back what `ebot_new` has allocated so far. -/
theorem ebotNewErr_eq
    (h : run obtained held b.blocks = .ok held') :
    ebotNewErr b held' = .ok (none, held) := by
  have hback : run (release Stop.fault) held'
      (b.epevents.toList.map .block ++ b.read_waits.toList.map .block ++
        b.write_waits.toList.map .block ++ [.block b.base]) = .ok held := by
    refine run_release_of_run_acquire h ?_
    unfold EbotBlocks.blocks
    rw [List.map_cons, List.map_append, List.map_append]
    exact List.perm_append_singleton _ _
  obtain ⟨held₃, hback, hbase⟩ := run_append_success hback
  obtain ⟨held₂, hback, hwrite⟩ := run_append_success hback
  obtain ⟨held₁, hevents, hread⟩ := run_append_success hback
  have hbase' : free held₃ (some b.base) = .ok held := (free_eq_run _ _).trans hbase
  unfold ebotNewErr
  rw [free_eq_run, hevents, ok_bind, free_eq_run, hread, ok_bind, free_eq_run, hwrite, ok_bind,
    hbase', ok_bind]

/-- What `ebot_new` has allocated grows by one block. -/
theorem EbotBlocks.blocks_next
    {c : EbotBlocks} {p : Nat} {held₁ : Holdings}
    (h : run obtained held b.blocks = .ok held₁)
    (hnext : obtained held₁ (.block p) = .ok held')
    (hblocks : c.blocks = b.blocks ++ [.block p]) :
    run obtained held c.blocks = .ok held' := by
  rw [hblocks]
  refine run_append h ?_
  rw [run, hnext]
  rfl

/-- How an `ebot_new` ends that has got its first block: it gives up with nothing more
than before, it has built a base, or it does not return, without a fault. -/
inductive EbotNewEnds (held : Holdings) : Except Stop (Option EbotBlocks × Holdings) → Prop
  | gaveUp : EbotNewEnds held (.ok (none, held))
  | built {b : EbotBlocks} {held' : Holdings} :
      run obtained held b.owned = .ok held' → EbotNewEnds held (.ok (some b, held'))
  | stopped {e : Stop} : e ≠ .fault → EbotNewEnds held (.error e)

/-- What the system hands out next, or does not. -/
theorem EbotNewEnds.obtained
    {r : Resource} {f : Holdings → Except Stop (Option EbotBlocks × Holdings)}
    (h : ∀ held₁, obtained held' r = .ok held₁ → EbotNewEnds held (f held₁)) :
    EbotNewEnds held (obtained held' r >>= f) := by
  cases hr : Lifecycle.obtained held' r with
  | ok held₁ => exact h held₁ hr
  | error e =>
      refine .stopped fun he => ?_
      unfold Lifecycle.obtained acquire at hr
      split at hr
      · cases hr
        cases he
      · cases hr

/-- The next `malloc`: without a block `ebot_new` gives up. -/
theorem EbotNewEnds.malloc
    {o : Option Nat} {f : Nat → Holdings → Except Stop (Option EbotBlocks × Holdings)}
    (hb : run Lifecycle.obtained held b.blocks = .ok held')
    (h : ∀ p held₁, Lifecycle.obtained held' (.block p) = .ok held₁ →
      EbotNewEnds held (f p held₁)) :
    EbotNewEnds held
      (match o with
        | none => ebotNewErr b held'
        | some p => Lifecycle.obtained held' (.block p) >>= f p) := by
  cases o with
  | none =>
      rw [ebotNewErr_eq hb]
      exact .gaveUp
  | some p => exact .obtained (h p)

/-- An `ebot_new` that gets its first block. -/
theorem ebotNew_ends
    {p₀ : Nat} (held : Holdings)
    (hkides : (E_READ ||| E_WRITE) &&& kides = kides)
    (hbase : env.base = some p₀) :
    EbotNewEnds held (ebotNew env kides held) := by
  unfold ebotNew
  rw [if_neg (not_not_intro hkides), hbase]
  refine .obtained fun held₀ h₀ => ?_
  have hb₀ : run obtained held (EbotBlocks.mk p₀ none none none 0).blocks = .ok held₀ := by
    dsimp only [EbotBlocks.blocks, Option.toList, List.map, run]
    rw [h₀]
    rfl
  refine .malloc hb₀ fun p₁ held₁ h₁ => ?_
  have hb₁ := EbotBlocks.blocks_next (c := ⟨p₀, some p₁, none, none, 0⟩) hb₀ h₁ rfl
  refine .malloc hb₁ fun p₂ held₂ h₂ => ?_
  have hb₂ := EbotBlocks.blocks_next (c := ⟨p₀, some p₁, some p₂, none, 0⟩) hb₁ h₂ rfl
  refine .malloc hb₂ fun p₃ held₃ h₃ => ?_
  have hb₃ := EbotBlocks.blocks_next (c := ⟨p₀, some p₁, some p₂, some p₃, 0⟩) hb₂ h₃ rfl
  cases env.epfd with
  | none =>
      dsimp only
      rw [ebotNewErr_eq hb₃]
      exact .gaveUp
  | some epfd =>
      refine .obtained fun held₄ h₄ => ?_
      split
      · exact .stopped nofun
      · refine .built (run_append hb₃ ?_)
        dsimp only [run]
        rw [h₄]

end Base

/-! ## Reactors -/

/-- The answers of `fcntl` in one `set_nonblock`, once they are not `EINTR`. -/
structure FcntlEnv where
  getfl : Int
  setfl : Int

/-- `set_nonblock`, as far as it returns. -/
def setNonblock (env : FcntlEnv) (fd : Fd) : Except Stop Unit :=
  if env.getfl < 0 then .error (.errExit "fcntl(%d, F_GETFL) failed." [(fd : Nat)])
  else if env.setfl < 0 then .error (.errExit "fcntl(%d, F_SETFL, opts) failed." [(fd : Nat)])
  else .ok ()

/-- `reactor`. -/
structure Reactor where
  id : Int
  tid : Option Nat
  base : EbotBlocks
  srv : Option Nat
  pipe : Fd × Fd
  status : Int

/-- What `reactor_pool_new` acquires for a reactor. -/
def Reactor.owned (r : Reactor) : List Resource :=
  r.base.owned ++ [.descriptor (r.pipe.1 : Nat), .descriptor (r.pipe.2 : Nat)]

/-- `reactor_pool`; `rsz` is the length of `reactors`. -/
structure ReactorPool where
  block : Nat
  reactors : List Reactor

/-- What `reactor_pool_new` acquires. -/
def ReactorPool.owned (rp : ReactorPool) : List Resource :=
  .block rp.block :: rp.reactors.flatMap Reactor.owned

/-- `sizeof(reactor)`. -/
def sizeofReactor : Nat := 48

/-- `sizeof(reactor_pool)`. -/
def sizeofReactorPool : Nat := 16

/-- What the system answers for one reactor; `none` is a failed `pipe`. -/
structure ReactorEnv where
  base : BaseEnv
  pipe : Option (Fd × Fd)
  nonblock : FcntlEnv × FcntlEnv

/-- The body of the loop of `reactor_pool_new`, for reactor `i`. -/
def reactorInit (env : ReactorEnv) (i : Nat) (held : Holdings) :
    Except Stop (Reactor × Holdings) := do
  let (base, held) ← ebotNew env.base (E_READ ||| E_WRITE) held
  match base, env.pipe with
  | none, _ => .error (.errExit "ebot_new failed for reactor %d" [i])
  | some _, none => .error (.errExit "reactor pool create pipe error: %s" [])
  | some base, some (r, w) => do
      let held ← obtained held (.descriptor (r : Nat))
      let held ← obtained held (.descriptor (w : Nat))
      setNonblock env.nonblock.1 r
      setNonblock env.nonblock.2 w
      .ok ({ id := i + 1, tid := none, base, srv := none, pipe := (r, w), status := 0 }, held)

/-- The loop from reactor `i` on, over `n` reactors, which must be in the block. -/
def reactorPoolInit (env : Nat → ReactorEnv) (size i : Nat) (held : Holdings) :
    Nat → Except Stop (List Reactor × Holdings)
  | 0 => .ok ([], held)
  | n + 1 =>
      if sizeofReactorPool + (i + 1) * sizeofReactor ≤ size then do
        let (r, held) ← reactorInit (env i) i held
        let (rs, held) ← reactorPoolInit env size (i + 1) held n
        .ok (r :: rs, held)
      else
        .error .fault

/-- `reactor_pool_new`, with the answer of `malloc`. -/
def reactorPoolNew (block : Option Nat) (env : Nat → ReactorEnv) (rsz : Nat)
    (held : Holdings) : Except Stop (ReactorPool × Holdings) :=
  let size := sizeT (int32 (sizeofReactorPool + sizeofReactor * rsz))
  match block with
  | none => .error (.errExit "malloc reactor_pool error: %s" [])
  | some block => do
      let held ← obtained held (.block block)
      let (reactors, held) ← reactorPoolInit env size 0 held rsz
      .ok ({ block, reactors }, held)

section Reactors

variable {held held' : Holdings}

theorem run_obtained_single
    {r : Resource}
    (h : obtained held r = .ok held') :
    run obtained held [r] = .ok held' := by
  rw [run, h]
  rfl

/-- One more resource. -/
theorem run_obtained_concat
    {rs : List Resource} {r : Resource} {held₁ : Holdings}
    (h : run obtained held rs = .ok held₁)
    (hnext : obtained held₁ r = .ok held') :
    run obtained held (rs ++ [r]) = .ok held' :=
  run_append h (run_obtained_single hnext)

theorem ebotNew_some
    {env : BaseEnv} {kides : UInt32} {b : EbotBlocks}
    (h : ebotNew env kides held = .ok (some b, held')) :
    run obtained held b.owned = .ok held' := by
  have hne : ebotNew env kides held ≠ .error .fault := fun he => nomatch h.symm.trans he
  have hkides : (E_READ ||| E_WRITE) &&& kides = kides := by
    by_contra hnot
    exact hne (if_pos hnot)
  cases hbase : env.base with
  | none =>
      unfold ebotNew at h
      rw [if_neg (not_not_intro hkides), hbase] at h
      cases h
  | some p₀ =>
      have hends := ebotNew_ends held hkides hbase
      rw [h] at hends
      cases hends with
      | built hrun => exact hrun

theorem reactorInit_ok
    {env : ReactorEnv} {i : Nat} {r : Reactor}
    (h : reactorInit env i held = .ok (r, held')) :
    run obtained held r.owned = .ok held' := by
  unfold reactorInit at h
  obtain ⟨⟨base, held₁⟩, hbase, h⟩ := bind_eq_ok.mp h
  cases base with
  | none => cases h
  | some base =>
      cases hpipe : env.pipe with
      | none =>
          rw [hpipe] at h
          cases h
      | some ends =>
          rw [hpipe] at h
          obtain ⟨held₂, h₂, h⟩ := bind_eq_ok.mp h
          obtain ⟨held₃, h₃, h⟩ := bind_eq_ok.mp h
          obtain ⟨_, -, h⟩ := bind_eq_ok.mp h
          obtain ⟨_, -, h⟩ := bind_eq_ok.mp h
          cases h
          have hboth := run_obtained_concat (run_obtained_concat (ebotNew_some hbase) h₂) h₃
          rwa [List.append_assoc] at hboth

theorem reactorPoolInit_ok
    {env : Nat → ReactorEnv} {size i n : Nat} {rs : List Reactor}
    (h : reactorPoolInit env size i held n = .ok (rs, held')) :
    rs.length = n ∧ run obtained held (rs.flatMap Reactor.owned) = .ok held' := by
  induction n generalizing i held rs with
  | zero =>
      cases h
      exact ⟨rfl, rfl⟩
  | succ n ih =>
      unfold reactorPoolInit at h
      split at h
      · obtain ⟨⟨r, held₁⟩, hr, h⟩ := bind_eq_ok.mp h
        obtain ⟨⟨rs', held₂⟩, hrest, h⟩ := bind_eq_ok.mp h
        cases h
        obtain ⟨hlen, hrun⟩ := ih hrest
        refine ⟨by rw [List.length_cons, hlen], ?_⟩
        rw [List.flatMap_cons]
        exact run_append (reactorInit_ok hr) hrun
      · cases h

theorem reactorPoolNew_ok
    {block : Option Nat} {env : Nat → ReactorEnv} {rsz : Nat} {rp : ReactorPool}
    (h : reactorPoolNew block env rsz held = .ok (rp, held')) :
    rp.reactors.length = rsz ∧ run obtained held rp.owned = .ok held' := by
  unfold reactorPoolNew at h
  cases block with
  | none => cases h
  | some p =>
      obtain ⟨held₁, h₁, h⟩ := bind_eq_ok.mp h
      obtain ⟨⟨rs, held₂⟩, hrest, h⟩ := bind_eq_ok.mp h
      cases h
      obtain ⟨hlen, hrun⟩ := reactorPoolInit_ok hrest
      exact ⟨hlen, run_append (run_obtained_single h₁) hrun⟩

end Reactors

/-! ## The server -/

/-- The `factory` of a server: what `wpool_new` made, and where its blocks are. -/
structure Factory where
  block : Nat
  wp : Wpool
  ringAt : Nat → Nat
  made : Resources
  tid : Nat → Option Nat
  status : Int

/-- What `wpool_new` acquires. -/
def Factory.owned (f : Factory) : List Resource :=
  .block f.block ::
    (f.made.opened.map .descriptor ++ (List.range f.made.rings.length).map fun r =>
      .block (f.ringAt r))

/-- `ebot_srv`. -/
structure EbSrv where
  block : Nat
  setting : EbSettings
  event_pool : Nat
  master_base : EbotBlocks
  slave_reactor : ReactorPool
  factory : Factory
  sfd : Fd
  status : Int

/-- What `eb_srv_new` acquires. -/
def EbSrv.owned (srv : EbSrv) : List Resource :=
  [.block srv.block, .block srv.event_pool] ++ srv.master_base.owned ++
    srv.slave_reactor.owned ++ srv.factory.owned

/-- `eb_default_setting`. -/
def ebDefaultSetting : EbSettings where
  memory_pool_size := 1024 * 4
  reactor_num := 4
  factory_num := 4
  max_connections := 10086

/-- What the system answers in one `eb_srv_new`. -/
structure SrvEnv where
  srv : Option Nat
  pool : Option Nat
  poolMutex : Int
  master : BaseEnv
  reactorPool : Option Nat
  reactor : Nat → ReactorEnv
  factory : PoolEnv
  factoryAt : Nat
  ringAt : Nat → Nat

/-- `eb_srv_new`; its checks of the results of `reactor_pool_new` never fail. -/
def ebSrvNew (env : SrvEnv) (s : Option EbSettings) (held : Holdings) :
    Except Stop (EbSrv × Holdings) :=
  match env.srv with
  | none => .error (.errExit "malloc ebot_srv error: %s" [])
  | some block => do
      let held ← obtained held (.block block)
      let setting := s.getD ebDefaultSetting
      match env.pool with
      | none => .error (.errExit "new event_pool error: %s" [])
      | some event_pool => do
          let held ← obtained held (.block event_pool)
          if env.poolMutex < 0 then
            .error (.errExit "new event_pool error: %s" [])
          else do
            let (master, held) ← ebotNew env.master E_READ held
            match master with
            | none => .error (.errExit "new master base error: %s" [])
            | some master_base => do
                let (rp, held) ← reactorPoolNew env.reactorPool env.reactor
                  (orFour setting.reactor_num) held
                let (wp, made) ← wpoolNew env.factory (orFour setting.factory_num) (1024 * 10)
                match wp with
                | none => .error (.errExit "new factory error: %s" [])
                | some wp => do
                    let factory : Factory :=
                      { block := env.factoryAt, wp, ringAt := env.ringAt, made
                        tid := fun _ => none, status := 0 }
                    let held ← run obtained held factory.owned
                    let reactors := rp.reactors.map fun r => { r with srv := some block }
                    .ok ({ block, setting, event_pool, master_base
                           slave_reactor := { rp with reactors }
                           factory, sfd := 0, status := 0 }, held)

/-- What the system answers in one `eb_srv_listen`; `none` is a failed `socket`. -/
structure ListenEnv where
  socket : Option Fd
  nonblock : FcntlEnv
  bind : Int
  listen : Int

/-- `PF_INET`. -/
def PF_INET : Int := 2

/-- `eb_srv_listen`. -/
def ebSrvListen (env : ListenEnv) (srv : EbSrv) (port : Nat) (held : Holdings) :
    Except Stop (EbSrv × Holdings) :=
  match env.socket with
  | none => .error (.errExit "create socket fail: %s" [])
  | some sfd => do
      let held ← obtained held (.descriptor (sfd : Nat))
      setNonblock env.nonblock sfd
      if env.bind < 0 then .error (.errExit "bind: af=%d port=%d err=%s" [PF_INET, port])
      else if env.listen < 0 then
        .error (.errExit "listen: af=%d port=%d err=%s" [PF_INET, port])
      else .ok ({ srv with sfd }, held)

/-- How one `pthread_create` ends. -/
inductive Creation where
  /-- It has stored the `pthread_t` of a new thread in the field `tid`. -/
  | created (tid : Nat)
  /-- There is no new thread.  What the field holds then, `none` being `NULL`, is not
  specified. -/
  | failed (left : Option Nat)

/-- The thread that was created. -/
def Creation.thread : Creation → Option Nat
  | .created tid => some tid
  | .failed _ => none

/-- What the field `tid` holds afterwards. -/
def Creation.tid : Creation → Option Nat
  | .created tid => some tid
  | .failed left => left

/-- The threads that were created of `n`, from the one with index `i` on. -/
def created (cs : Nat → Creation) (i n : Nat) : List Nat :=
  (List.range' i n).filterMap fun j => (cs j).thread

/-- `reactor_pool_start`, from reactor `i` on.  Its check `ret < 0` does not see that a
thread was not created. -/
def reactorPoolStart (cs : Nat → Creation) : Nat → List Reactor → List Reactor
  | _, [] => []
  | i, r :: rs => { r with status := 1, tid := (cs i).tid } :: reactorPoolStart cs (i + 1) rs

/-- How the calls of `pthread_create` end, one for each reactor and each unit. -/
structure StartEnv where
  reactor : Nat → Creation
  unit : Nat → Creation

/-- All threads that were created, for `rsz` reactors and `num` units. -/
def StartEnv.created (threads : StartEnv) (rsz num : Nat) : List Nat :=
  Lifecycle.created threads.reactor 0 rsz ++ Lifecycle.created threads.unit 0 num

/-- `eb_srv_start` up to the event of the master: `reactor_pool_start` and
`wpool_start`, which does not see a failure either. -/
def ebSrvStart (env : StartEnv) (srv : EbSrv) (held : Holdings) :
    Except Stop (EbSrv × Holdings) :=
  if srv.sfd = 0 then
    .error (.errExit "server not listen up" [])
  else do
    let rp := srv.slave_reactor
    let held ← run obtained held ((created env.reactor 0 rp.reactors.length).map .thread)
    let held ← run obtained held ((created env.unit 0 srv.factory.wp.num.toNat).map .thread)
    .ok ({ srv with
            status := 1
            slave_reactor := { rp with reactors := reactorPoolStart env.reactor 0 rp.reactors }
            factory := { srv.factory with tid := fun u => (env.unit u).tid, status := 1 } }, held)

/-! ## Destroying it -/

/-- The threads `eb_srv_destroy` waits for. -/
inductive PoolThread where
  | reactor (i : Nat)
  | worker (u : Nat)
deriving DecidableEq

/-- What `eb_srv_destroy` does, one call or assignment after the other. -/
inductive Cmd where
  /-- `srv->status = 0`. -/
  | clearStatus
  /-- `rp->reactors[i].status = 0`. -/
  | clearReactor (i : Nat)
  /-- The loop of `wpool_stop` over the status of a unit. -/
  | stopUnit (u : Nat)
  /-- Its write to the `efd` of the unit. -/
  | wakeUnit (u : Nat)
  | join (th : PoolThread) (tid : Option Nat)
  | close (fd : Int)
  | free (p : Option Nat)
  /-- `ringq_destroy`, which reads `rq->use_lock` first. -/
  | ringqDestroy (rq : Option Nat)
deriving DecidableEq

/-- `ebot_destroy`. -/
def ebotDestroy (b : EbotBlocks) : List Cmd :=
  [.close (b.epfd : Nat), .free b.epevents, .free b.write_waits, .free b.read_waits,
    .free (some b.base)]

/-- `reactor_pool_stop`, from reactor `i` on. -/
def reactorPoolStop : Nat → List Reactor → List Cmd
  | _, [] => []
  | i, r :: rs =>
      [.clearReactor i, .close (r.pipe.1 : Nat), .close (r.pipe.2 : Nat),
        .join (.reactor i) r.tid] ++ reactorPoolStop (i + 1) rs

/-- The loop of `wpool_stop` from unit `i` on, over `n` units: it ends at the first that
has no thread. -/
def stopUnits (tid : Nat → Option Nat) (i : Nat) : Nat → List Cmd
  | 0 => []
  | n + 1 =>
      match tid i with
      | none => []
      | some t => .stopUnit i :: .join (.worker i) (some t) :: stopUnits tid (i + 1) n

/-- `wpool_stop`. -/
def wpoolStop (f : Factory) : List Cmd :=
  if f.status = 0 then [] else stopUnits f.tid 0 f.wp.num.toNat

/-- `reactor_pool_destroy`. -/
def reactorPoolDestroy (rp : ReactorPool) : List Cmd :=
  rp.reactors.flatMap (fun r => ebotDestroy r.base) ++ [.free (some rp.block)]

/-- The loop of `wpool_destory` from unit `i` on, over `n` units. -/
def destoryUnits (f : Factory) (i n : Nat) : List Cmd :=
  (List.range' i n).flatMap fun u =>
    .ringqDestroy ((f.wp.units u).rq.map f.ringAt) ::
      if 0 < (f.wp.units u).efd then [.close (f.wp.units u).efd] else []

/-- `wpool_destory`. -/
def wpoolDestory (f : Factory) : List Cmd :=
  destoryUnits f 0 f.wp.num.toNat ++ [.free (some f.block)]

/-- `mpool_destroy`. -/
def mpoolDestroy (mp : Nat) : List Cmd := [.free (some mp)]

/-- `eb_srv_destroy`. -/
def ebSrvDestroy (srv : EbSrv) : List Cmd :=
  [.clearStatus] ++
    (reactorPoolStop 0 srv.slave_reactor.reactors ++ wpoolStop srv.factory) ++
    (reactorPoolDestroy srv.slave_reactor ++ wpoolDestory srv.factory ++
      mpoolDestroy srv.event_pool ++ [.close (srv.sfd : Nat)] ++
      ebotDestroy srv.master_base ++ [.free (some srv.block)])

/-- What it does to the holdings. -/
def Cmd.exec (held : Holdings) : Cmd → Except Stop Holdings
  | .clearStatus | .clearReactor _ | .stopUnit _ | .wakeUnit _ => .ok held
  | .join _ tid => do
      let t ← orFault tid
      release .fault held (.thread t)
  | .close fd => .ok (held.erase (.descriptor fd))
  | .free p => Lifecycle.free held p
  | .ringqDestroy rq => do
      let p ← orFault rq
      release .fault held (.block p)

/-- What it gives back. -/
def Cmd.releases : Cmd → List Resource
  | .clearStatus | .clearReactor _ | .stopUnit _ | .wakeUnit _ => []
  | .join _ tid => tid.toList.map .thread
  | .close fd => [.descriptor fd]
  | .free p => p.toList.map .block
  | .ringqDestroy rq => rq.toList.map .block

/-- What it calls `pthread_join` with, if it does. -/
def Cmd.joined : Cmd → Option (Option Nat)
  | .join _ tid => some tid
  | _ => none

/-- It does not follow a `NULL`. -/
def Cmd.Sound : Cmd → Prop
  | .join _ tid => tid.isSome = true
  | .ringqDestroy rq => rq.isSome = true
  | _ => True

section Destroy

variable {held held' : Holdings} {cmds : List Cmd} {c : Cmd}

/-- A command whose resources are held gives them back. -/
theorem Cmd.exec_eq
    (hsound : c.Sound)
    (hheld : ∀ r ∈ c.releases, r ∈ held) :
    c.exec held = run (release Stop.fault) held c.releases := by
  have hone : ∀ r : Resource, release Stop.fault held r =
      run (release Stop.fault) held [r] := by
    intro r
    dsimp only [run]
    cases release Stop.fault held r <;> rfl
  cases c with
  | clearStatus => rfl
  | clearReactor i => rfl
  | stopUnit u => rfl
  | wakeUnit u => rfl
  | join th tid =>
      cases tid with
      | none => cases hsound
      | some t => exact hone _
  | close fd =>
      have hmem : Resource.descriptor fd ∈ held := hheld _ (List.mem_singleton.mpr rfl)
      have hrelease : release Stop.fault held (.descriptor fd) =
          .ok (held.erase (.descriptor fd)) := if_pos hmem
      exact hrelease.symm.trans (hone _)
  | free p => exact free_eq_run held p
  | ringqDestroy rq =>
      cases rq with
      | none => cases hsound
      | some p => exact hone _

/-- Commands that give back what is held, nothing twice. -/
theorem run_exec_eq
    (hsound : ∀ c ∈ cmds, c.Sound)
    (h : run (release Stop.fault) held (cmds.flatMap Cmd.releases) = .ok held') :
    run Cmd.exec held cmds = .ok held' := by
  induction cmds generalizing held with
  | nil => exact h
  | cons c cmds ih =>
      rw [List.flatMap_cons] at h
      obtain ⟨held₁, hfirst, hrest⟩ := run_append_success h
      rw [run, Cmd.exec_eq (hsound c List.mem_cons_self) (run_release.mp hfirst).2.1, hfirst]
      exact ih (fun c hc => hsound c (List.mem_cons_of_mem _ hc)) hrest

/-- A command that returns has followed no `NULL`, and leaves what it does not give
back. -/
theorem Cmd.exec_ok
    (h : c.exec held = .ok held') :
    c.Sound ∧ held' = held \ c.releases.toFinset := by
  have hone : ∀ {r : Resource}, release Stop.fault held r = .ok held' →
      held' = held \ [r].toFinset := by
    intro r hr
    rw [(release_eq_ok.mp hr).2]
    exact (Finset.sdiff_singleton_eq_erase r held).symm
  have hnone : held = held \ ([] : List Resource).toFinset := (Finset.sdiff_empty).symm
  cases c with
  | clearStatus =>
      cases h
      exact ⟨trivial, hnone⟩
  | clearReactor i =>
      cases h
      exact ⟨trivial, hnone⟩
  | stopUnit u =>
      cases h
      exact ⟨trivial, hnone⟩
  | wakeUnit u =>
      cases h
      exact ⟨trivial, hnone⟩
  | join th tid =>
      cases tid with
      | none => cases h
      | some t => exact ⟨rfl, hone h⟩
  | close fd =>
      cases h
      exact ⟨trivial, (Finset.sdiff_singleton_eq_erase _ held).symm⟩
  | free p =>
      cases p with
      | none =>
          cases h
          exact ⟨trivial, hnone⟩
      | some p => exact ⟨trivial, hone h⟩
  | ringqDestroy rq =>
      cases rq with
      | none => cases h
      | some p => exact ⟨rfl, hone h⟩

/-- Commands that return have joined different threads, all of them held, and have left
the other threads alone. -/
theorem run_exec_joined
    (h : run Cmd.exec held cmds = .ok held') :
    ∃ ts : List Nat, cmds.filterMap Cmd.joined = ts.map some ∧ ts.Nodup ∧
      ∀ t, (t ∈ ts → .thread t ∈ held) ∧ (.thread t ∈ held' ↔ .thread t ∈ held ∧ t ∉ ts) := by
  induction cmds generalizing held with
  | nil =>
      cases h
      exact ⟨[], rfl, .nil, by simp⟩
  | cons c cmds ih =>
      obtain ⟨held₁, hfirst, hrest⟩ := run_cons_success h
      obtain ⟨hsound, rfl⟩ := Cmd.exec_ok hfirst
      obtain ⟨ts, hts, hnodup, hthread⟩ := ih hrest
      -- a command that joins nothing gives no thread back
      have hother : c.joined = none → (∀ t, .thread t ∉ c.releases) →
          ∃ ts : List Nat, (c :: cmds).filterMap Cmd.joined = ts.map some ∧ ts.Nodup ∧
            ∀ t, (t ∈ ts → .thread t ∈ held) ∧
              (.thread t ∈ held' ↔ .thread t ∈ held ∧ t ∉ ts) := by
        intro hnone hkeeps
        refine ⟨ts, by rw [List.filterMap_cons_none hnone, hts], hnodup, fun t => ?_⟩
        simpa [hkeeps t] using hthread t
      cases c with
      | join th tid =>
          obtain ⟨t, rfl⟩ := Option.isSome_iff_exists.mp hsound
          refine ⟨t :: ts, ?_, List.nodup_cons.mpr ⟨fun hmem => ?_, hnodup⟩, fun t' => ?_⟩
          · rw [List.map_cons, ← hts]
            rfl
          · simpa [Cmd.releases] using (hthread t).1 hmem
          · have hheld : .thread t ∈ held := by
              obtain ⟨t₀, ht₀, hrelease⟩ := bind_eq_ok.mp hfirst
              cases ht₀
              exact (release_eq_ok.mp hrelease).1
            have hrest' := hthread t'
            simp only [Cmd.releases, Option.toList_some, List.map_cons, List.map_nil,
              List.toFinset_cons, List.toFinset_nil, insert_empty_eq, Finset.mem_sdiff,
              Finset.mem_singleton, Resource.thread.injEq] at hrest'
            grind
      | free p => exact hother rfl (by cases p <;> simp [Cmd.releases])
      | ringqDestroy rq => exact hother rfl (by cases rq <;> simp [Cmd.releases])
      | _ => exact hother rfl (by simp [Cmd.releases])

end Destroy

/-! ## What a server that was built holds -/

section Factory

variable {env : PoolEnv} {rq_sz num : Int} {sys made : Resources} {wp wp' : Wpool} {m n : Nat}

/-- A loop of `wpool_new` that reached its end. -/
theorem wpoolInit_done
    (hbuilt : Built env m sys wp)
    (h : wpoolInit env rq_sz sys wp m n = .ok (true, made, wp')) :
    Built env (m + n) made wp' ∧ wp'.num = wp.num ∧ wp'.size = wp.size ∧
      ∀ u, m ≤ u → u < m + n →
        0 ≤ (env.unit u).efd ∧ sizeofWpool + (u + 1) * sizeofWunit ≤ wp.size := by
  induction n generalizing m sys wp with
  | zero =>
      cases h
      exact ⟨hbuilt, rfl, rfl, fun u hle hlt => absurd hlt (by omega)⟩
  | succ n ih =>
      have hlen : m + (n + 1) = m + 1 + n := by omega
      unfold wpoolInit at h
      obtain hat | hat := wp.unitAt_cases m
      · rw [hat, error_bind] at h
        cases h
      · have hinside : sizeofWpool + (m + 1) * sizeofWunit ≤ wp.size := by
          by_contra hout
          rw [Wpool.unitAt, if_neg hout] at hat
          cases hat
        rw [hat, ok_bind] at h
        by_cases hunit : (env.unit m).Initialises rq_sz
        · obtain ⟨rq, hinit⟩ := wunitInit_of_initialises sys (wp.units m) (m + 1) hunit
          rw [hinit] at h
          obtain ⟨hbuilt', hnum, hsize, hunits⟩ := ih (hbuilt.next rq) h
          rw [hlen]
          refine ⟨hbuilt', hnum, hsize, fun u hle hlt => ?_⟩
          by_cases hu : u = m
          · subst hu
            exact ⟨hunit.1, hinside⟩
          · exact hunits u (by omega) (by omega)
        · obtain ⟨opened, u', hinit, -⟩ := wunitInit_of_not_initialises sys (m + 1) hunit
            (hbuilt.rest m le_rfl)
          rw [hinit] at h
          cases h

/-- What `wpool_new` returns is complete. -/
structure Whole (env : PoolEnv) (made : Resources) (wp : Wpool) : Prop where
  num : 0 ≤ wp.num
  built : Built env wp.num.toNat made wp
  efds : ∀ u, u < wp.num.toNat → 0 ≤ (env.unit u).efd
  size : sizeofWpool + wp.num.toNat * sizeofWunit ≤ wp.size

theorem wpoolNew_some
    (hnonneg : 0 ≤ num)
    (h : wpoolNew env num rq_sz = .ok (some wp, made)) :
    wp.num = num ∧ Whole env made wp := by
  unfold wpoolNew at h
  dsimp only at h
  split at h
  · cases h
  · split at h
    · cases h
    · rename_i hsize
      split at h
      · obtain ⟨_, -, h⟩ := bind_eq_ok.mp h
        cases h
      · obtain ⟨⟨done, sys, wp'⟩, hinit, h⟩ := bind_eq_ok.mp h
        cases done with
        | false =>
            dsimp only at h
            rw [if_neg Bool.false_ne_true] at h
            obtain ⟨_, -, h⟩ := bind_eq_ok.mp h
            cases h
        | true =>
            cases h
            obtain ⟨hbuilt, hnum, hwpsize, hunits⟩ := wpoolInit_done (built_start env _ num) hinit
            rw [Nat.zero_add] at hbuilt hunits
            dsimp only at hnum hwpsize
            refine ⟨hnum, hnum ▸ hnonneg, hnum ▸ hbuilt, fun u hu => ?_, ?_⟩
            · exact (hunits u (Nat.zero_le u) (hnum ▸ hu)).1
            · rw [hnum, hwpsize]
              cases hlast : num.toNat with
              | zero => omega
              | succ n => exact (hunits n (Nat.zero_le n) (by omega)).2

variable {f : Factory}

/-- What the commands of `wpool_destory` give back of complete units. -/
theorem destoryUnits_releases
    (hbuilt : Built env n f.made f.wp) :
    ((destoryUnits f 0 n).flatMap Cmd.releases).Perm
      (((efds env n).filter (0 < ·)).map .descriptor ++
        (List.range n).map fun r => .block (f.ringAt r)) := by
  have hunit : ∀ u ∈ List.range n,
      (Cmd.ringqDestroy ((f.wp.units u).rq.map f.ringAt) ::
        if 0 < (f.wp.units u).efd then [Cmd.close (f.wp.units u).efd] else []).flatMap
          Cmd.releases =
        [.block (f.ringAt u)] ++ (([(env.unit u).efd].filter (0 < ·)).map .descriptor) := by
    intro u hu
    rw [hbuilt.units u (List.mem_range.mp hu)]
    by_cases hefd : 0 < (env.unit u).efd
    · simp [hefd, Cmd.releases]
    · simp [hefd, Cmd.releases]
  have hlist : (destoryUnits f 0 n).flatMap Cmd.releases = (List.range n).flatMap fun u =>
      [.block (f.ringAt u)] ++ (([(env.unit u).efd].filter (0 < ·)).map .descriptor) := by
    unfold destoryUnits
    rw [List.flatMap_assoc, ← List.range_eq_range']
    exact List.flatMap_congr hunit
  have hefds : ((List.range n).flatMap fun u =>
      (([(env.unit u).efd].filter (0 < ·)).map Resource.descriptor)) =
        ((efds env n).filter (0 < ·)).map .descriptor := by
    unfold efds
    induction List.range n with
    | nil => rfl
    | cons u us ih =>
        rw [List.flatMap_cons, ih, ← List.map_append, ← List.filter_append]
        rfl
  have hrings : ((List.range n).flatMap fun u => [Resource.block (f.ringAt u)]) =
      (List.range n).map fun r => .block (f.ringAt r) := List.map_eq_flatMap.symm
  rw [hlist, ← hefds, ← hrings]
  exact (List.flatMap_append_perm _ _ _).symm.trans List.perm_append_comm

/-- The commands of `wpool_destory` close the eventfds and free the rings that
`wpool_destory` of the pool does. -/
theorem wpoolDestory_agrees
    (hwhole : Whole env f.made f.wp) :
    ∃ sys, Ebot.wpoolDestory f.made f.wp = .ok sys ∧
      ((destoryUnits f 0 f.wp.num.toNat).flatMap Cmd.releases).Perm
        (sys.closed.map .descriptor ++ sys.freed.map fun r => .block (f.ringAt r)) := by
  have hnum := hwhole.num
  exact ⟨_, wpoolDestory_built hwhole.built (by omega) hwhole.size,
    destoryUnits_releases hwhole.built⟩

end Factory

/-! ## What `eb_srv_destroy` gives back -/

/-- The threads with these `tid`s, `NULL` apart. -/
def threadsIn (tids : List (Option Nat)) : List Resource :=
  tids.flatMap fun tid => tid.toList.map .thread

theorem threadsIn_append
    (tids tids' : List (Option Nat)) :
    threadsIn (tids ++ tids') = threadsIn tids ++ threadsIn tids' :=
  List.flatMap_append

theorem threadsIn_some
    (ts : List Nat) :
    threadsIn (ts.map some) = ts.map .thread := by
  unfold threadsIn
  rw [List.flatMap_map]
  exact List.map_eq_flatMap.symm

section Releases

variable {rs : List Reactor} {i n : Nat} {tid : Nat → Option Nat}

theorem ebotDestroy_releases
    (b : EbotBlocks) :
    ((ebotDestroy b).flatMap Cmd.releases).Perm b.owned := by
  rw [List.perm_iff_count]
  intro r
  simp only [ebotDestroy, List.flatMap_cons, List.flatMap_nil, Cmd.releases, EbotBlocks.owned,
    EbotBlocks.blocks, List.map_cons, List.map_append, List.count_append, List.count_cons,
    List.count_nil, Option.toList_some, List.map_nil]
  omega

theorem reactorPoolStop_releases
    (i : Nat) (rs : List Reactor) :
    ((reactorPoolStop i rs).flatMap Cmd.releases).Perm
      ((rs.flatMap fun r => [.descriptor (r.pipe.1 : Nat), .descriptor (r.pipe.2 : Nat)]) ++
        threadsIn (rs.map Reactor.tid)) := by
  induction rs generalizing i with
  | nil => exact .refl _
  | cons r rs ih =>
      rw [List.perm_iff_count]
      intro x
      have hrest := (ih (i + 1)).count_eq x
      simp only [reactorPoolStop, threadsIn, List.map_cons, List.flatMap_append,
        List.flatMap_cons, List.flatMap_nil, Cmd.releases, List.count_append, List.count_cons,
        List.count_nil] at hrest ⊢
      omega

/-- Stopping and destroying the reactors gives back what they hold. -/
theorem reactorPool_releases
    (rp : ReactorPool) :
    (((reactorPoolStop 0 rp.reactors) ++ reactorPoolDestroy rp).flatMap Cmd.releases).Perm
      (rp.owned ++ threadsIn (rp.reactors.map Reactor.tid)) := by
  have hbases : ((rp.reactors.flatMap fun r => ebotDestroy r.base).flatMap Cmd.releases).Perm
      (rp.reactors.flatMap fun r => r.base.owned) := by
    rw [List.flatMap_assoc]
    exact .flatMap_left _ fun r _ => ebotDestroy_releases r.base
  have howned : (rp.reactors.flatMap Reactor.owned).Perm
      ((rp.reactors.flatMap fun r => r.base.owned) ++ rp.reactors.flatMap fun r =>
        [.descriptor (r.pipe.1 : Nat), .descriptor (r.pipe.2 : Nat)]) :=
    (List.flatMap_append_perm _ _ _).symm
  rw [List.perm_iff_count]
  intro x
  have h₁ := (reactorPoolStop_releases 0 rp.reactors).count_eq x
  have h₂ := hbases.count_eq x
  have h₃ := howned.count_eq x
  simp only [reactorPoolDestroy, ReactorPool.owned, List.flatMap_append, List.flatMap_cons,
    List.flatMap_nil, Cmd.releases, List.count_append, List.count_cons, List.count_nil,
    Option.toList_some, List.map_cons, List.map_nil] at h₁ h₂ h₃ ⊢
  omega

theorem reactorPoolStop_joined
    (i : Nat) (rs : List Reactor) :
    (reactorPoolStop i rs).filterMap Cmd.joined = rs.map Reactor.tid := by
  induction rs generalizing i with
  | nil => rfl
  | cons r rs ih =>
      unfold reactorPoolStop
      rw [List.filterMap_append, ih]
      rfl

/-- The units with a thread come first. -/
def Leading (tid : Nat → Option Nat) (n : Nat) : Prop :=
  ∀ u v, u < v → v < n → (tid v).isSome = true → (tid u).isSome = true

theorem stopUnits_releases
    (tid : Nat → Option Nat) (i n : Nat) :
    (stopUnits tid i n).flatMap Cmd.releases =
      threadsIn ((stopUnits tid i n).filterMap Cmd.joined) := by
  induction n generalizing i with
  | zero => rfl
  | succ n ih =>
      unfold stopUnits
      cases tid i with
      | none => rfl
      | some t =>
          dsimp only
          rw [List.flatMap_cons, List.flatMap_cons, ih (i + 1)]
          rfl

/-- Where the units with a thread come first, `wpool_stop` joins every thread. -/
theorem stopUnits_joined
    (h : ∀ u v, i ≤ u → u < v → v < i + n → (tid v).isSome = true → (tid u).isSome = true) :
    (stopUnits tid i n).filterMap Cmd.joined = ((List.range' i n).filterMap tid).map some := by
  induction n generalizing i with
  | zero => rfl
  | succ n ih =>
      unfold stopUnits
      rw [List.range'_succ]
      cases htid : tid i with
      | none =>
          -- then no later unit has one
          have hnone : (List.range' (i + 1) n).filterMap tid = [] := by
            refine List.filterMap_eq_nil_iff.mpr fun v hv => ?_
            rw [List.mem_range'_1] at hv
            cases hv' : tid v with
            | none => rfl
            | some t =>
                have hi := h i v le_rfl (by omega) (by omega) (by rw [hv']; rfl)
                rw [htid] at hi
                cases hi
          rw [List.filterMap_cons_none htid, hnone]
          rfl
      | some t =>
          have hrest := ih (i := i + 1) fun u v hu huv hv => h u v (by omega) huv (by omega)
          rw [List.filterMap_cons_some htid, List.map_cons, ← hrest]
          rfl

/-- In any case it joins no other, and only behind units that have one. -/
theorem mem_stopUnits_joined
    {o : Option Nat}
    (ho : o ∈ (stopUnits tid i n).filterMap Cmd.joined) :
    ∃ u, i ≤ u ∧ u < i + n ∧ tid u = o ∧ ∀ v, i ≤ v → v ≤ u → (tid v).isSome = true := by
  induction n generalizing i with
  | zero => cases ho
  | succ n ih =>
      unfold stopUnits at ho
      cases htid : tid i with
      | none =>
          rw [htid] at ho
          cases ho
      | some t =>
          rw [htid] at ho
          have hmem : o ∈ some t :: (stopUnits tid (i + 1) n).filterMap Cmd.joined := ho
          rcases List.mem_cons.mp hmem with rfl | hrest
          · refine ⟨i, le_rfl, by omega, htid, fun v hle hge => ?_⟩
            obtain rfl : v = i := by omega
            rw [htid]
            rfl
          · obtain ⟨u, hle, hlt, hu, hall⟩ := ih hrest
            refine ⟨u, by omega, by omega, hu, fun v hv hvu => ?_⟩
            by_cases hvi : v = i
            · rw [hvi, htid]
              rfl
            · exact hall v (by omega) hvu

end Releases

/-! ## The whole life of a server -/

/-- A server with its threads, and what was acquired for it since `before`. -/
structure Started (env : SrvEnv) (threads : StartEnv) (before : Holdings) (srv : EbSrv)
    (held : Holdings) : Prop where
  acquired : run obtained before
    (srv.owned ++ [.descriptor (srv.sfd : Nat)] ++
      (created threads.reactor 0 srv.slave_reactor.reactors.length).map .thread ++
      (created threads.unit 0 srv.factory.wp.num.toNat).map .thread) = .ok held
  whole : Whole env.factory srv.factory.made srv.factory.wp
  rsz : srv.slave_reactor.reactors.length = orFour srv.setting.reactor_num
  num : srv.factory.wp.num.toNat = orFour srv.setting.factory_num
  reactors : srv.slave_reactor.reactors.map Reactor.tid =
    (List.range' 0 srv.slave_reactor.reactors.length).map fun i => (threads.reactor i).tid
  units : srv.factory.tid = fun u => (threads.unit u).tid
  status : srv.factory.status = 1
  listening : srv.sfd ≠ 0

section Start

variable {env : SrvEnv} {s : Option EbSettings} {before held held' : Holdings} {srv srv' : EbSrv}

theorem ebSrvNew_ok
    (h : ebSrvNew env s before = .ok (srv, held)) :
    run obtained before srv.owned = .ok held ∧
      Whole env.factory srv.factory.made srv.factory.wp ∧
      srv.slave_reactor.reactors.length = orFour srv.setting.reactor_num ∧
      srv.factory.wp.num.toNat = orFour srv.setting.factory_num := by
  unfold ebSrvNew at h
  cases hsrv : env.srv with
  | none =>
      rw [hsrv] at h
      cases h
  | some block =>
      rw [hsrv] at h
      obtain ⟨held₁, h₁, h⟩ := bind_eq_ok.mp h
      cases hpool : env.pool with
      | none =>
          rw [hpool] at h
          cases h
      | some pool =>
          rw [hpool] at h
          obtain ⟨held₂, h₂, h⟩ := bind_eq_ok.mp h
          split at h
          · cases h
          · obtain ⟨⟨master, held₃⟩, hmaster, h⟩ := bind_eq_ok.mp h
            cases master with
            | none => cases h
            | some master =>
                obtain ⟨⟨rp, held₄⟩, hrp, h⟩ := bind_eq_ok.mp h
                obtain ⟨⟨wp, made⟩, hwp, h⟩ := bind_eq_ok.mp h
                cases wp with
                | none => cases h
                | some wp =>
                    obtain ⟨held₅, hfactory, h⟩ := bind_eq_ok.mp h
                    cases h
                    obtain ⟨hlen, hrun⟩ := reactorPoolNew_ok hrp
                    obtain ⟨hnum, hwhole⟩ := wpoolNew_some (by omega) hwp
                    have hblocks := run_obtained_concat (run_obtained_single h₁) h₂
                    have howned : (rp.reactors.map fun r => { r with srv := some block }).flatMap
                        Reactor.owned = rp.reactors.flatMap Reactor.owned :=
                      List.flatMap_map _ _ _
                    refine ⟨?_, hwhole, ?_, ?_⟩
                    · unfold EbSrv.owned ReactorPool.owned
                      dsimp only
                      rw [howned]
                      exact run_append (run_append (run_append hblocks (ebotNew_some hmaster)) hrun)
                        hfactory
                    · rw [List.length_map]
                      exact hlen
                    · dsimp only
                      rw [hnum, Int.toNat_natCast]

theorem ebSrvListen_ok
    {lenv : ListenEnv} {port : Nat}
    (h : ebSrvListen lenv srv port held = .ok (srv', held')) :
    ∃ sfd, srv' = { srv with sfd } ∧ obtained held (.descriptor (sfd : Nat)) = .ok held' := by
  unfold ebSrvListen at h
  cases hsocket : lenv.socket with
  | none =>
      rw [hsocket] at h
      cases h
  | some sfd =>
      rw [hsocket] at h
      obtain ⟨held₁, h₁, h⟩ := bind_eq_ok.mp h
      obtain ⟨_, -, h⟩ := bind_eq_ok.mp h
      split at h
      · cases h
      · split at h
        · cases h
        · cases h
          exact ⟨sfd, rfl, h₁⟩

/-- Starting the reactors sets their threads, and nothing they own. -/
theorem reactorPoolStart_spec
    (cs : Nat → Creation) (i : Nat) (rs : List Reactor) :
    (reactorPoolStart cs i rs).map Reactor.tid =
        (List.range' i rs.length).map (fun i => (cs i).tid) ∧
      (reactorPoolStart cs i rs).flatMap Reactor.owned = rs.flatMap Reactor.owned ∧
      (reactorPoolStart cs i rs).length = rs.length := by
  induction rs generalizing i with
  | nil => exact ⟨rfl, rfl, rfl⟩
  | cons r rs ih =>
      obtain ⟨htid, howned, hlen⟩ := ih (i + 1)
      unfold reactorPoolStart
      refine ⟨?_, ?_, ?_⟩
      · rw [List.map_cons, htid, List.length_cons, List.range'_succ, List.map_cons]
      · rw [List.flatMap_cons, howned, List.flatMap_cons]
        rfl
      · rw [List.length_cons, hlen, List.length_cons]

/-- A server that was built, listens and was started. -/
theorem started
    {lenv : ListenEnv} {threads : StartEnv} {port : Nat} {srv₁ srv₂ : EbSrv}
    {held₁ held₂ : Holdings}
    (hnew : ebSrvNew env s before = .ok (srv₁, held₁))
    (hlisten : ebSrvListen lenv srv₁ port held₁ = .ok (srv₂, held₂))
    (hstart : ebSrvStart threads srv₂ held₂ = .ok (srv, held)) :
    Started env threads before srv held := by
  obtain ⟨howned, hwhole, hrsz, hnum⟩ := ebSrvNew_ok hnew
  obtain ⟨sfd, rfl, hsfd⟩ := ebSrvListen_ok hlisten
  unfold ebSrvStart at hstart
  split at hstart
  · cases hstart
  · rename_i hlistening
    obtain ⟨held₃, hreactors, hstart⟩ := bind_eq_ok.mp hstart
    obtain ⟨held₄, hunits, hstart⟩ := bind_eq_ok.mp hstart
    cases hstart
    obtain ⟨htid, hsame, hlen⟩ := reactorPoolStart_spec threads.reactor 0
      srv₁.slave_reactor.reactors
    refine ⟨?_, hwhole, ?_, hnum, ?_, rfl, rfl, hlistening⟩
    · have hall := run_append (run_append (run_obtained_concat howned hsfd) hreactors) hunits
      unfold EbSrv.owned ReactorPool.owned at hall ⊢
      dsimp only at hall ⊢
      rw [hsame, hlen]
      exact hall
    · dsimp only
      rw [hlen, hrsz]
    · dsimp only
      rw [htid, hlen]

end Start

section Life

variable {env : SrvEnv} {threads : StartEnv} {before held held' : Holdings} {srv : EbSrv}
variable {cs : Nat → Creation} {i n : Nat}

theorem mem_created
    {t : Nat} :
    t ∈ created cs i n ↔ ∃ u, i ≤ u ∧ u < i + n ∧ (cs u).thread = some t := by
  unfold created
  simp only [List.mem_filterMap, List.mem_range'_1, and_assoc]

theorem map_eq_some_filterMap
    {f : Nat → Option Nat} {is : List Nat}
    (h : ∀ i ∈ is, (f i).isSome = true) :
    is.map f = (is.filterMap f).map some := by
  induction is with
  | nil => rfl
  | cons i is ih =>
      obtain ⟨hi, his⟩ := List.forall_mem_cons.mp h
      obtain ⟨t, ht⟩ := Option.isSome_iff_exists.mp hi
      rw [List.filterMap_cons_some ht, List.map_cons, List.map_cons, ht, ih his]

/-- Different threads were created for different units. -/
theorem created_inj
    {u v t : Nat}
    (hnodup : (created cs i n).Nodup)
    (hu : i ≤ u ∧ u < i + n)
    (hv : i ≤ v ∧ v < i + n)
    (hut : (cs u).thread = some t)
    (hvt : (cs v).thread = some t) :
    u = v := by
  by_contra hne
  have hpair := List.pairwise_filterMap.mp hnodup
  have : Std.Symm fun a b =>
      ∀ t, (cs a).thread = some t → ∀ t', (cs b).thread = some t' → t ≠ t' :=
    ⟨fun _ _ h t ht t' ht' => (h t' ht' t ht).symm⟩
  exact hpair.forall (List.mem_range'_1.mpr hu) (List.mem_range'_1.mpr hv) hne t hut t hvt rfl

/-- Where a thread was not created, its `tid` is `NULL`. -/
def StartEnv.LeavesNull (threads : StartEnv) (rsz num : Nat) : Prop :=
  (∀ i, i < rsz → (threads.reactor i).tid = (threads.reactor i).thread) ∧
    ∀ u, u < num → (threads.unit u).tid = (threads.unit u).thread

/-- All threads of the reactors were created, and those of the first units. -/
def StartEnv.Joinable (threads : StartEnv) (rsz num : Nat) : Prop :=
  (∀ i, i < rsz → (threads.reactor i).thread.isSome = true) ∧
    Leading (fun u => (threads.unit u).thread) num

/-- The eventfds are above 0. -/
theorem Started.efds_pos
    (h : Started env threads before srv held)
    (hzero : .descriptor 0 ∈ before) :
    ∀ fd ∈ efds env.factory srv.factory.wp.num.toNat, 0 < fd := by
  intro fd hfd
  have hopened : fd ∈ srv.factory.made.opened := h.whole.built.opened ▸ hfd
  obtain ⟨u, hu, rfl⟩ := List.mem_map.mp hfd
  have hnonneg := h.whole.efds u (List.mem_range.mp hu)
  have hne : (env.factory.unit u).efd ≠ 0 := by
    intro he
    refine (run_acquire.mp h.acquired).2.1 (.descriptor 0) ?_ hzero
    have hmem : Resource.descriptor 0 ∈ srv.factory.made.opened.map Resource.descriptor :=
      List.mem_map.mpr ⟨_, hopened, by rw [he]⟩
    simp [EbSrv.owned, Factory.owned, hmem]
  omega

/-- What `wpool_stop` does in a started server. -/
theorem Started.wpoolStop_eq
    (h : Started env threads before srv held) :
    wpoolStop srv.factory =
      stopUnits (fun u => (threads.unit u).tid) 0 srv.factory.wp.num.toNat := by
  unfold wpoolStop
  rw [h.status, h.units, if_neg (by decide)]

/-- The reactors are joined, then the workers. -/
theorem Started.joined
    (h : Started env threads before srv held) :
    (ebSrvDestroy srv).filterMap Cmd.joined =
      srv.slave_reactor.reactors.map Reactor.tid ++
        (stopUnits (fun u => (threads.unit u).tid) 0
          srv.factory.wp.num.toNat).filterMap Cmd.joined := by
  have hbase : ∀ b : EbotBlocks, (ebotDestroy b).filterMap Cmd.joined = [] := fun _ => rfl
  have hbases : (srv.slave_reactor.reactors.flatMap fun r => ebotDestroy r.base).filterMap
      Cmd.joined = [] := by
    simp [List.filterMap_flatMap, hbase]
  have hunits : (destoryUnits srv.factory 0 srv.factory.wp.num.toNat).filterMap Cmd.joined =
      [] := by
    refine List.filterMap_eq_nil_iff.mpr fun c hc => ?_
    obtain ⟨u, -, hc⟩ := List.mem_flatMap.mp hc
    rcases List.mem_cons.mp hc with rfl | hc
    · rfl
    · split at hc
      · rw [List.mem_singleton.mp hc]
        rfl
      · cases hc
  unfold ebSrvDestroy reactorPoolDestroy wpoolDestory mpoolDestroy
  simp only [List.filterMap_append, reactorPoolStop_joined, h.wpoolStop_eq, hbases, hunits, hbase]
  simp [List.filterMap_cons, Cmd.joined]

/-- Everything but the threads is given back as it was acquired. -/
theorem Started.releases
    (h : Started env threads before srv held)
    (hzero : .descriptor 0 ∈ before) :
    ((ebSrvDestroy srv).flatMap Cmd.releases).Perm
      (srv.owned ++ [.descriptor (srv.sfd : Nat)] ++
        threadsIn ((ebSrvDestroy srv).filterMap Cmd.joined)) := by
  have hfilter : (efds env.factory srv.factory.wp.num.toNat).filter (0 < ·) =
      efds env.factory srv.factory.wp.num.toNat :=
    List.filter_eq_self.mpr fun fd hfd => decide_eq_true (h.efds_pos hzero fd hfd)
  have hunits := destoryUnits_releases h.whole.built
  rw [hfilter] at hunits
  have hstop := stopUnits_releases (fun u => (threads.unit u).tid) 0 srv.factory.wp.num.toNat
  have hopened := h.whole.built.opened
  have hrings := h.whole.built.rings
  rw [h.joined, threadsIn_append, ← hstop, List.perm_iff_count]
  intro r
  have h₁ := (reactorPool_releases srv.slave_reactor).count_eq r
  have h₂ := hunits.count_eq r
  have h₃ := (ebotDestroy_releases srv.master_base).count_eq r
  simp only [ebSrvDestroy, h.wpoolStop_eq, wpoolDestory, mpoolDestroy, EbSrv.owned, Factory.owned,
    hopened, hrings, List.flatMap_append, List.flatMap_cons, List.flatMap_nil, Cmd.releases,
    List.count_append, List.count_cons, List.count_nil, Option.toList_some, List.map_cons,
    List.map_nil] at h₁ h₂ h₃ ⊢
  omega

theorem reactorPoolStop_sound
    {rs : List Reactor}
    (i : Nat)
    (h : ∀ r ∈ rs, r.tid.isSome = true) :
    ∀ c ∈ reactorPoolStop i rs, c.Sound := by
  induction rs generalizing i with
  | nil => exact nofun
  | cons r rs ih =>
      obtain ⟨hr, hrs⟩ := List.forall_mem_cons.mp h
      unfold reactorPoolStop
      rw [List.forall_mem_append]
      refine ⟨?_, ih (i + 1) hrs⟩
      simpa [Cmd.Sound] using hr

theorem stopUnits_sound
    (tid : Nat → Option Nat) (i n : Nat) :
    ∀ c ∈ stopUnits tid i n, c.Sound := by
  induction n generalizing i with
  | zero => exact nofun
  | succ n ih =>
      unfold stopUnits
      cases tid i with
      | none => exact nofun
      | some t => exact List.forall_mem_cons.mpr ⟨trivial, List.forall_mem_cons.mpr ⟨rfl, ih _⟩⟩

/-- The commands follow no `NULL` where all reactors have a `tid`: `pthread_join` is the
only one that could. -/
theorem Started.sound
    (h : Started env threads before srv held)
    (hreactors : ∀ r ∈ srv.slave_reactor.reactors, r.tid.isSome = true) :
    ∀ c ∈ ebSrvDestroy srv, c.Sound := by
  have hbase : ∀ b : EbotBlocks, ∀ c ∈ ebotDestroy b, c.Sound := by
    intro b
    simp [ebotDestroy, Cmd.Sound]
  have hpool : ∀ c ∈ reactorPoolDestroy srv.slave_reactor, c.Sound := by
    refine List.forall_mem_append.mpr ⟨fun c hc => ?_, by simp [Cmd.Sound]⟩
    obtain ⟨r, -, hc⟩ := List.mem_flatMap.mp hc
    exact hbase _ c hc
  have hunits : ∀ c ∈ wpoolDestory srv.factory, c.Sound := by
    refine List.forall_mem_append.mpr ⟨fun c hc => ?_, by simp [Cmd.Sound]⟩
    obtain ⟨u, hu, hc⟩ := List.mem_flatMap.mp hc
    rw [← List.range_eq_range', List.mem_range] at hu
    rw [h.whole.built.units u hu] at hc
    rcases List.mem_cons.mp hc with rfl | hc
    · rfl
    · split at hc
      · rw [List.mem_singleton.mp hc]
        trivial
      · cases hc
  have hstop : ∀ c ∈ wpoolStop srv.factory, c.Sound := by
    rw [h.wpoolStop_eq]
    exact stopUnits_sound _ _ _
  intro c hc
  unfold ebSrvDestroy at hc
  simp only [List.mem_append, List.mem_singleton] at hc
  rcases hc with (rfl | hc | hc) | ((((hc | hc) | hc) | rfl) | hc) | rfl
  · trivial
  · exact reactorPoolStop_sound 0 hreactors c hc
  · exact hstop c hc
  · exact hpool c hc
  · exact hunits c hc
  · rw [List.mem_singleton.mp hc]
    trivial
  · trivial
  · exact hbase _ c hc
  · trivial

/-- The threads that were created differ, and are among what was acquired. -/
theorem Started.threads_acquired
    (h : Started env threads before srv held) :
    (threads.created srv.slave_reactor.reactors.length srv.factory.wp.num.toNat).Nodup ∧
      ∀ t, (.thread t ∈ held ↔ .thread t ∈ before ∨
          t ∈ threads.created srv.slave_reactor.reactors.length srv.factory.wp.num.toNat) ∧
        (t ∈ threads.created srv.slave_reactor.reactors.length srv.factory.wp.num.toNat →
          .thread t ∉ before) := by
  have hacquired := h.acquired
  rw [List.append_assoc, ← List.map_append] at hacquired
  obtain ⟨hnodup, hfresh, rfl⟩ := run_acquire.mp hacquired
  refine ⟨(List.nodup_append.mp hnodup).2.1.of_map, fun t => ⟨?_, fun ht => ?_⟩⟩
  · have howned : .thread t ∉ srv.owned := by
      simp [EbSrv.owned, EbotBlocks.owned, EbotBlocks.blocks, ReactorPool.owned, Reactor.owned,
        Factory.owned]
    simp [howned, StartEnv.created]
  · exact hfresh _ (List.mem_append_right _ (List.mem_map_of_mem ht))

/-- `eb_srv_destroy` gives everything back where it joins each thread that was created,
and nothing else. -/
theorem Started.run_destroy
    (h : Started env threads before srv held)
    (hzero : .descriptor 0 ∈ before)
    (hjoined : ((ebSrvDestroy srv).filterMap Cmd.joined).Perm
      ((threads.created srv.slave_reactor.reactors.length
        srv.factory.wp.num.toNat).map some)) :
    run Cmd.exec held (ebSrvDestroy srv) = .ok before := by
  have hacquired := h.acquired
  rw [List.append_assoc, ← List.map_append] at hacquired
  have hreleases := h.releases hzero
  refine run_exec_eq (h.sound fun r hr => ?_) (run_release_of_run_acquire hacquired ?_)
  · have hmem : r.tid ∈ (ebSrvDestroy srv).filterMap Cmd.joined := by
      rw [h.joined]
      exact List.mem_append_left _ (List.mem_map_of_mem hr)
    obtain ⟨t, -, ht⟩ := List.mem_map.mp (hjoined.mem_iff.mp hmem)
    rw [← ht]
    rfl
  · refine hreleases.trans (.append_left _ ?_)
    have hthreads := hjoined.flatMap_right fun tid => tid.toList.map Resource.thread
    exact hthreads.trans (.of_eq (threadsIn_some _))

/-- Only there does it: a join that is missing leaves a thread behind, and one too many is
undefined or takes a thread that was there before. -/
theorem Started.joined_of_run
    (h : Started env threads before srv held)
    (hrun : run Cmd.exec held (ebSrvDestroy srv) = .ok before) :
    ((ebSrvDestroy srv).filterMap Cmd.joined).Perm
      ((threads.created srv.slave_reactor.reactors.length
        srv.factory.wp.num.toNat).map some) := by
  obtain ⟨ts, hts, hnodup, hthread⟩ := run_exec_joined hrun
  obtain ⟨hnodup', hacquired⟩ := h.threads_acquired
  rw [hts]
  refine ((List.perm_ext_iff_of_nodup hnodup hnodup').mpr fun t => ?_).map some
  obtain ⟨hheld, hleft⟩ := hthread t
  obtain ⟨hnow, hfresh⟩ := hacquired t
  constructor
  · intro ht
    exact (hnow.mp (hheld ht)).resolve_left fun hbefore => (hleft.mp hbefore).2 ht
  · intro ht
    by_contra hmissing
    exact hfresh ht (hleft.mpr ⟨hnow.mpr (.inr ht), hmissing⟩)

/-- Where a thread that was not created has no `tid`, `eb_srv_destroy` joins all threads
iff those that are missing are the last. -/
theorem Started.joined_iff
    (h : Started env threads before srv held)
    (hnull : threads.LeavesNull srv.slave_reactor.reactors.length srv.factory.wp.num.toNat) :
    ((ebSrvDestroy srv).filterMap Cmd.joined).Perm
        ((threads.created srv.slave_reactor.reactors.length
          srv.factory.wp.num.toNat).map some) ↔
      threads.Joinable srv.slave_reactor.reactors.length srv.factory.wp.num.toNat := by
  obtain ⟨hreactors, hunits⟩ := hnull
  rw [h.joined, h.reactors]
  constructor
  · intro hperm
    have hsome : ∀ i, i < srv.slave_reactor.reactors.length →
        (threads.reactor i).thread.isSome = true := by
      intro i hi
      have hmem := hperm.mem_iff.mp (List.mem_append_left _
        (List.mem_map_of_mem (List.mem_range'_1.mpr ⟨Nat.zero_le i, by omega⟩)))
      obtain ⟨t, -, ht⟩ := List.mem_map.mp hmem
      rw [← hreactors i hi, ← ht]
      rfl
    refine ⟨hsome, fun u v huv hv hcreated => ?_⟩
    -- the thread of unit `v` is joined, and not as a reactor
    obtain ⟨t, ht⟩ := Option.isSome_iff_exists.mp hcreated
    have hunit : t ∈ created threads.unit 0 srv.factory.wp.num.toNat :=
      mem_created.mpr ⟨v, Nat.zero_le v, by omega, ht⟩
    have hnodup := List.nodup_append.mp h.threads_acquired.1
    have hmem := hperm.mem_iff.mpr (List.mem_map_of_mem (List.mem_append_right _ hunit))
    rcases List.mem_append.mp hmem with hreactor | hworker
    · obtain ⟨i, hi, hti⟩ := List.mem_map.mp hreactor
      have hlt : i < srv.slave_reactor.reactors.length := by
        simpa using List.mem_range'_1.mp hi
      have hti' : (threads.reactor i).thread = some t := (hreactors i hlt).symm.trans hti
      exact absurd rfl (hnodup.2.2 t (mem_created.mpr ⟨i, Nat.zero_le i, by omega, hti'⟩) t hunit)
    · obtain ⟨w, -, hw, htw, hall⟩ := mem_stopUnits_joined hworker
      rw [Nat.zero_add] at hw
      obtain rfl : w = v := created_inj hnodup.2.1 ⟨Nat.zero_le w, by omega⟩
        ⟨Nat.zero_le v, by omega⟩ ((hunits w hw).symm.trans htw) ht
      have hu := hall u (Nat.zero_le u) (by omega)
      exact (congrArg Option.isSome (hunits u (by omega))).symm.trans hu
  · rintro ⟨hsome, hleading⟩
    have hfirst : (List.range' 0 srv.slave_reactor.reactors.length).map
        (fun i => (threads.reactor i).tid) =
          (created threads.reactor 0 srv.slave_reactor.reactors.length).map some := by
      have htid : ∀ i ∈ List.range' 0 srv.slave_reactor.reactors.length,
          (threads.reactor i).tid = (threads.reactor i).thread :=
        fun i hi => hreactors i (by simpa using List.mem_range'_1.mp hi)
      rw [List.map_congr_left htid]
      exact map_eq_some_filterMap fun i hi => hsome i (by simpa using List.mem_range'_1.mp hi)
    have hsecond : (stopUnits (fun u => (threads.unit u).tid) 0
        srv.factory.wp.num.toNat).filterMap Cmd.joined =
          (created threads.unit 0 srv.factory.wp.num.toNat).map some := by
      rw [stopUnits_joined fun u v _ huv hv hcreated => ?_]
      · refine congrArg (List.map some) (List.filterMap_congr fun u hu => ?_)
        exact hunits u (by simpa using List.mem_range'_1.mp hu)
      · rw [hunits u (by omega)]
        rw [hunits v (by omega)] at hcreated
        exact hleading u v huv (by omega) hcreated
    rw [hfirst, hsecond, StartEnv.created, List.map_append]

/-- **The life of a server.**  Descriptor 0 being open, `eb_srv_destroy` gives back exactly
what `eb_srv_new`, `eb_srv_listen` and the start of the threads have acquired, each block,
descriptor and thread once, if and only if what it calls `pthread_join` with are, in some
order, the threads that were created.  Where a thread that was not created has no `tid`,
that is so if and only if every `pthread_create` for a reactor succeeded and those that
failed for the workers are the last. -/
theorem server_gives_everything_back
    {env : SrvEnv} {s : Option EbSettings} {lenv : ListenEnv} {threads : StartEnv} {port : Nat}
    {before held₁ held₂ held : Holdings} {srv₁ srv₂ srv : EbSrv}
    (hzero : .descriptor 0 ∈ before)
    (hnew : ebSrvNew env s before = .ok (srv₁, held₁))
    (hlisten : ebSrvListen lenv srv₁ port held₁ = .ok (srv₂, held₂))
    (hstart : ebSrvStart threads srv₂ held₂ = .ok (srv, held)) :
    (run Cmd.exec held (ebSrvDestroy srv) = .ok before ↔
        ((ebSrvDestroy srv).filterMap Cmd.joined).Perm
          ((threads.created (orFour srv.setting.reactor_num)
            (orFour srv.setting.factory_num)).map some)) ∧
      (threads.LeavesNull (orFour srv.setting.reactor_num) (orFour srv.setting.factory_num) →
        (run Cmd.exec held (ebSrvDestroy srv) = .ok before ↔
          threads.Joinable (orFour srv.setting.reactor_num)
            (orFour srv.setting.factory_num))) := by
  have h := started hnew hlisten hstart
  rw [← h.rsz, ← h.num]
  have hiff := Iff.intro h.joined_of_run (h.run_destroy hzero)
  exact ⟨hiff, fun hnull => hiff.trans (h.joined_iff hnull)⟩

/-- The configuration the threads of a started server run with. -/
def Started.cfg (h : Started env threads before srv held)
    (callbacks : EbEvent → Bool) (udata : UInt64) : Cfg where
  setting := srv.setting
  sfd := srv.sfd
  pipeFd := fun i => (srv.slave_reactor.reactors[i]?.map fun r => r.pipe.1).getD 0
  opened := fun fd => decide (.descriptor (fd : Nat) ∈ held)
  callbacks
  udata
  sfd_opened := by
    refine decide_eq_true (mem_of_run_acquire h.acquired ?_)
    simp
  pipe_opened := by
    intro i hi
    have hlt : i < srv.slave_reactor.reactors.length := h.rsz ▸ hi
    refine decide_eq_true (mem_of_run_acquire h.acquired ?_)
    have howned : Resource.descriptor
        (((srv.slave_reactor.reactors[i]?.map fun r => r.pipe.1).getD 0 : Fd) : Nat) ∈
          srv.slave_reactor.reactors.flatMap Reactor.owned := by
      refine List.mem_flatMap.mpr ⟨_, List.getElem_mem hlt, ?_⟩
      simp [Reactor.owned, List.getElem?_eq_getElem hlt]
    simp only [EbSrv.owned, ReactorPool.owned, List.mem_append, List.mem_cons]
    tauto

end Life

/-- A server of one reactor and one worker: blocks at 1 to 7, 10 to 13 and 20 to 23,
descriptors 3 to 8. -/
def Small.srvEnv : SrvEnv where
  srv := some 1
  pool := some 2
  poolMutex := 0
  master := ⟨some 10, some 11, some 12, some 13, some 3, 0⟩
  reactorPool := some 3
  reactor := fun _ =>
    ⟨⟨some 20, some 21, some 22, some 23, some 4, 0⟩, some (5, 6), ⟨2, 0⟩, ⟨2, 0⟩⟩
  factory := { mallocOk := true, mutexRet := 0, unit := fun _ => ⟨7, true, 0⟩ }
  factoryAt := 4
  ringAt := fun u => 5 + u

/-- Its threads. -/
def Small.threads : StartEnv := ⟨fun i => .created (i + 1), fun u => .created (u + 2)⟩

/-- It is built, listens on 8080 and starts both threads. -/
def Small.life : Except Stop (EbSrv × Holdings) := do
  let (srv, held) ← ebSrvNew Small.srvEnv (some ⟨0, 1, 1, 0⟩) {.descriptor 0}
  let (srv, held) ← ebSrvListen ⟨some 8, ⟨2, 0⟩, 0, 0⟩ srv 8080 held
  ebSrvStart Small.threads srv held

theorem Small.exists_life :
    ∃ srv₁ srv₂ held₁ held₂ o,
      ebSrvNew Small.srvEnv (some ⟨0, 1, 1, 0⟩) {.descriptor 0} = .ok (srv₁, held₁) ∧
      ebSrvListen ⟨some 8, ⟨2, 0⟩, 0, 0⟩ srv₁ 8080 held₁ = .ok (srv₂, held₂) ∧
      ebSrvStart Small.threads srv₂ held₂ = .ok o ∧ Small.life = .ok o := by
  have hok : Small.life.isOk = true := by decide +kernel
  cases hlife : Small.life with
  | error e =>
      rw [hlife] at hok
      cases hok
  | ok o =>
      obtain ⟨o₁, hnew, hrest⟩ := bind_eq_ok.mp hlife
      obtain ⟨o₂, hlisten, hstart⟩ := bind_eq_ok.mp hrest
      exact ⟨_, _, _, _, o, hnew, hlisten, hstart, rfl⟩

/-- It is destroyed again. -/
theorem server_gives_everything_back_small :
    ∃ o, Small.life = .ok o ∧ run Cmd.exec o.2 (ebSrvDestroy o.1) = .ok {.descriptor 0} := by
  obtain ⟨_, _, _, _, o, hnew, hlisten, hstart, hlife⟩ := Small.exists_life
  exact ⟨o, hlife,
    ((server_gives_everything_back (Finset.mem_singleton_self _) hnew hlisten hstart).2
      ⟨fun _ _ => rfl, fun _ _ => rfl⟩).mpr ⟨fun _ _ => rfl, fun _ _ _ _ _ => rfl⟩⟩

/-- **`ebot_new` gives back.**  It is undefined exactly for event kinds it does not support
and where its first `malloc` fails.  Otherwise, whatever fails, a base that is not returned
leaves nothing behind, and one that is returned is given back by `ebot_destroy`. -/
theorem ebot_new_gives_back
    (env : BaseEnv) (kides : UInt32) (held : Holdings) :
    (ebotNew env kides held = .error .fault ↔
        (E_READ ||| E_WRITE) &&& kides ≠ kides ∨ env.base = none) ∧
      (∀ held', ebotNew env kides held = .ok (none, held') → held' = held) ∧
      ∀ b held', ebotNew env kides held = .ok (some b, held') →
        run Cmd.exec held' (ebotDestroy b) = .ok held := by
  by_cases hkides : (E_READ ||| E_WRITE) &&& kides = kides
  · cases hbase : env.base with
    | none =>
        have hfault : ebotNew env kides held = .error .fault := by
          unfold ebotNew
          rw [if_neg (not_not_intro hkides), hbase]
        refine ⟨iff_of_true hfault (.inr rfl), fun held' h => ?_, fun b held' h => ?_⟩
        · cases hfault.symm.trans h
        · cases hfault.symm.trans h
    | some p =>
        have hends := ebotNew_ends held hkides hbase
        refine ⟨iff_of_false (fun h => ?_) (by simp [hkides]), fun held' h => ?_,
          fun b held' h => ?_⟩
        · rw [h] at hends
          cases hends with
          | stopped hne => exact hne rfl
        · rw [h] at hends
          cases hends
          rfl
        · refine run_exec_eq (by simp [ebotDestroy, Cmd.Sound]) ?_
          exact run_release_of_run_acquire (ebotNew_some h) (ebotDestroy_releases b)
  · have hfault : ebotNew env kides held = .error .fault := if_pos hkides
    refine ⟨iff_of_true hfault (.inl hkides), fun held' h => ?_, fun b held' h => ?_⟩
    · cases hfault.symm.trans h
    · cases hfault.symm.trans h

end Lifecycle

end Ebot
