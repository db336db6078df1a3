import Ebot.Delivery
import Ebot.Library.History

/-!
# The order of the application callbacks

The master writes a new descriptor to the pipe of its reactor before it calls
`EB_CONNECT`.  From then on the reactor may register the descriptor and react
to it, so `EB_CONNECT` comes first only if no event of the descriptor is
dispatched while the master is between the two.
-/

namespace Ebot

open Function EdgeSource EventState Transition History

/-- The callback of the event belongs to a connection. -/
def Event.isClient (e : SrvEvent) : Bool :=
  e.cb == some .reactor_pool_client_read_callback ||
    e.cb == some .reacto_pool_client_write_callback

/-- `EB_CONNECT` has been called for the descriptor. -/
def Connected (fd : Fd) (log : List Note) : Prop :=
  ∃ (c : Caller) (stream : EbStream),
    .called c .EB_CONNECT stream ∈ log ∧ stream.fd = (fd : Nat)

/-- Every other callback for a descriptor comes after its `EB_CONNECT`. -/
def ConnectFirst (log : List Note) : Prop :=
  Always (fun past x => ∀ (c : Caller) (e : EbEvent) (stream : EbStream),
    x = .called c e stream → e ≠ .EB_CONNECT →
      ∃ fd : Fd, stream.fd = (fd : Nat) ∧ Connected fd past) log

/-- No event of a connection is dispatched while its descriptor has been written
to a pipe and `EB_CONNECT` not been called. -/
def WaitsForConnect (cfg : Cfg) (s : Server) : Action → Prop
  | .run t _ =>
      match s.pc t, s.events.readies t with
      | .dispatch, p :: _ =>
          (s.events.ev p).isClient = true →
            ∀ t', cfg.Runs t' → s.pc t' ≠ .announce (s.events.ev p).fd
      | _, _ => True
  | _ => True

instance (cfg : Cfg) (s : Server) : DecidablePred (WaitsForConnect cfg s)
  | .run t _ => by
      dsimp only [WaitsForConnect]
      generalize s.pc t = pc
      generalize s.events.readies t = readies
      rcases pc <;> rcases readies <;> infer_instance
  | .arrive | .wait _ _ | .work _ _ => isTrue trivial

/-- The descriptor a thread is registering. -/
def Pc.opens : Pc → Option Fd
  | .opening _ _ fd => some fd
  | .undoing _ _ fd _ => some fd
  | _ => none

/-- The descriptor a thread is reading from. -/
def Pc.serves : Pc → Option Fd
  | .recv _ fd => some fd
  | .closing _ _ fd => some fd
  | .pushing fd _ _ => some fd
  | _ => none

/-- `EB_CONNECT` has been called for the descriptor or is about to be. -/
def Known (s : Server) (fd : Fd) : Prop :=
  Connected fd s.log ∨ ∃ t, s.pc t = .announce fd

/-- A thread may be here: it registers a known descriptor and reads from a
connected one. -/
structure Pc.Allowed (s : Server) (pc : Pc) : Prop where
  opens : ∀ fd, pc.opens = some fd → Known s fd
  serves : ∀ fd, pc.serves = some fd → Connected fd s.log

/-- Whoever deals with a connection knows it, and serves it only once it is
connected. -/
structure ServedConnected (s : Server) : Prop where
  pipe : ∀ i fd, fd ∈ (s.pipe i).items → Known s fd
  ev : ∀ p, (s.events.ev p).isClient = true → Known s (s.events.ev p).fd
  pcs : ∀ t, (s.pc t).Allowed s
  pushed : ∀ u fd n d, .pushed u fd n d ∈ s.log → Connected fd s.log
  log : ConnectFirst s.log

section Steps

variable {cfg : Cfg} {s s' : Server} {a : Action} {fd : Fd}
variable {log notes : List Note}

theorem Connected.append
    (h : Connected fd log) :
    Connected fd (log ++ notes) := by
  obtain ⟨c, stream, hmem, hfd⟩ := h
  exact ⟨c, stream, List.mem_append_left _ hmem, hfd⟩

/-- What is known stays known: the thread that announces calls `EB_CONNECT`. -/
theorem Known.move
    (hcb : cfg.callbacks .EB_CONNECT = true)
    (h : Known s fd)
    (hmove : Move cfg s a s') :
    Known s' fd := by
  obtain ⟨notes, hlog⟩ := hmove.log_append
  rcases h with h | ⟨t, hpc⟩
  · exact .inl (hlog ▸ h.append)
  · by_cases ha : a.thread = some t
    · left
      cases hmove with
      | announced _ hpc' =>
          cases ha
          rw [hpc] at hpc'
          cases hpc'
          refine ⟨.thread t, ebStream (fd : Nat) cfg.udata, ?_, rfl⟩
          simp [callback, hcb]
      | _ => cases ha <;> simp_all only [reduceCtorEq]
    · exact .inr ⟨t, (hmove.pc_other ha).trans hpc⟩

theorem servedConnected_ebSrvNew : ServedConnected (ebSrvNew cfg) where
  pipe := by
    intro i fd h
    cases h
  ev := by
    intro p h
    cases h
  pcs := by
    intro t
    constructor <;> intro fd h <;> cases h
  pushed := by
    intro u fd n d h
    cases h
  log := always_nil

/-- After a step the events of connections are known. -/
def KnownEvents (s : Server) (E : EventState) : Prop :=
  ∀ p, (E.ev p).isClient = true → Known s (E.ev p).fd

/-- Nothing new is served, and what is newly opened is known. -/
theorem ServedConnected.keep
    (h : ServedConnected s)
    (hcb : cfg.callbacks .EB_CONNECT = true)
    (hmove : Move cfg s a s')
    (hpipe : ∀ i fd, fd ∈ (s'.pipe i).items → fd ∈ (s.pipe i).items ∨ Known s' fd)
    (hev : KnownEvents s s'.events)
    (hpcs : ∀ t, (s'.pc t).Allowed s)
    (hpushed : ∀ u fd n d, .pushed u fd n d ∈ s'.log → Connected fd s.log)
    (hlog : ConnectFirst s'.log) :
    ServedConnected s' := by
  obtain ⟨notes, hnotes⟩ := hmove.log_append
  refine ⟨?_, ?_, ?_, ?_, hlog⟩
  · intro i fd hfd
    rcases hpipe i fd hfd with hold | hnew
    · exact (h.pipe i fd hold).move hcb hmove
    · exact hnew
  · exact fun p hp => (hev p hp).move hcb hmove
  · intro t
    constructor
    · exact fun fd hfd => ((hpcs t).opens fd hfd).move hcb hmove
    · intro fd hfd
      rw [hnotes]
      exact ((hpcs t).serves fd hfd).append
  · intro u fd n d hmem
    rw [hnotes]
    exact (hpushed u fd n d hmem).append

/-- Events of connections after a batch was collected or one was taken. -/
theorem SameContent.isClient
    {E E' : EventState} {p : Nat}
    (h : SameContent E E') :
    (E'.ev p).isClient = (E.ev p).isClient := by
  unfold Event.isClient
  rw [h.cb]

theorem bootEvent_isClient
    {t : Tid} :
    (bootEvent cfg t).isClient = false := by
  cases t <;> rfl

/-- An entry that is no callback keeps the order. -/
theorem ConnectFirst.append
    (h : ConnectFirst log)
    (hnew : ∀ x ∈ notes, ∀ c e stream, x ≠ .called c e stream) :
    ConnectFirst (log ++ notes) :=
  Always.append h fun x hx _ c e stream he => absurd he (hnew x hx c e stream)

/-- A callback for a connected descriptor keeps the order. -/
theorem ConnectFirst.append_callback
    {c : Caller} {e : EbEvent} {stream : EbStream}
    (cfg : Cfg)
    (h : ConnectFirst log)
    (hfd : stream.fd = (fd : Nat))
    (hconnected : e ≠ .EB_CONNECT → Connected fd log) :
    ConnectFirst (log ++ callback cfg c e stream) := by
  unfold callback
  split
  · refine Always.append_singleton h ?_
    rintro c' e' stream' ⟨⟩ hne
    exact ⟨fd, hfd, hconnected hne⟩
  · simpa using h

/-- The taken event is known to be connected. -/
theorem ServedConnected.taken
    {t : Tid} {env : Env} {p : Nat} {events : EventState}
    (h : ServedConnected s)
    (hboot : ∀ t, ¬ cfg.Runs t → s.pc t = .boot)
    (hgood : WaitsForConnect cfg s (.run t env))
    (hpc : s.pc t = .dispatch)
    (htaken : Taken s.events t p events)
    (hclient : (events.ev p).isClient = true) :
    Connected (events.ev p).fd s.log := by
  rw [htaken.content.fd]
  rw [htaken.content.isClient] at hclient
  rcases h.ev p hclient with hconn | ⟨t', hannounce⟩
  · exact hconn
  · exfalso
    simp only [WaitsForConnect, hpc, htaken.queue] at hgood
    by_cases hrun : cfg.Runs t'
    · exact hgood hclient t' hrun hannounce
    · rw [hboot t' hrun] at hannounce
      cases hannounce

theorem Pc.opens_start
    {cb : Callback} {arg : Arg} {pc : Pc}
    (h : Pc.start fd cb arg = some pc) :
    pc.opens = none := by
  cases cb <;> cases arg <;> cases h <;> rfl

/-- A callback that serves a descriptor is the read callback of a connection. -/
theorem Pc.serves_start
    {e : SrvEvent} {fd' : Fd} {cb : Callback} {pc : Pc}
    (hcb : e.callback = some cb)
    (h : Pc.start e.fd cb e.arg = some pc)
    (hserves : pc.serves = some fd') :
    e.isClient = true ∧ fd' = e.fd := by
  have hcb' := Event.cb_of_callback hcb
  cases harg : e.arg <;> rw [harg] at h <;> cases cb <;> cases h <;> cases hserves
  exact ⟨by simp [Event.isClient, hcb'], rfl⟩

/-- The events after one was filled in. -/
theorem ServedConnected.events_opened
    {E : EventState} {t : Tid} {d : Dir} {e : SrvEvent} {p : Nat} {ret : Int}
    (h : ServedConnected s)
    (hop : Opened s.events t d e p ret E)
    (he : e.isClient = true → Known s e.fd) :
    KnownEvents s E := by
  intro q hq
  rw [hop.ev] at hq ⊢
  by_cases hqp : q = p
  · subst hqp
    rw [update_self] at hq ⊢
    exact he hq
  · rw [update_of_ne hqp] at hq ⊢
    exact h.ev q hq

/-- The events after the queues have changed. -/
theorem ServedConnected.events_same
    {E : EventState}
    (h : ServedConnected s)
    (hcontent : SameContent s.events E) :
    KnownEvents s E := by
  intro q hq
  rw [hcontent.isClient] at hq
  rw [hcontent.fd]
  exact h.ev q hq

/-- The events after a removal or after a slab was put back. -/
theorem ServedConnected.events_eq
    {E : EventState}
    (h : ServedConnected s)
    (heq : E.ev = s.events.ev) :
    KnownEvents s E := by
  intro q hq
  rw [heq] at hq ⊢
  exact h.ev q hq

/-- Entries that are not about packets say nothing of pushes. -/
theorem ServedConnected.pushed_append
    (h : ServedConnected s)
    (hnotes : ∀ x ∈ notes, x.ofFactory = false) :
    ∀ u fd n d, .pushed u fd n d ∈ s.log ++ notes → Connected fd s.log := by
  intro u fd n d hmem
  rcases List.mem_append.mp hmem with hmem | hmem
  · exact h.pushed u fd n d hmem
  · cases hnotes _ hmem

/-- Threads are where they may be after one of them has moved. -/
theorem ServedConnected.pcs_goto
    {t : Tid} {pc : Pc}
    (h : ServedConnected s)
    (hpc : pc.Allowed s) :
    ∀ t', ((s.goto t pc).pc t').Allowed s :=
  Server.forall_pc_goto (P := fun _ pc => pc.Allowed s) (fun t' _ => h.pcs t') hpc

theorem Pc.Allowed.of_none
    {pc : Pc}
    (hopens : pc.opens = none)
    (hserves : pc.serves = none) :
    pc.Allowed s := by
  constructor
  · intro fd hfd
    rw [hopens] at hfd
    cases hfd
  · intro fd hfd
    rw [hserves] at hfd
    cases hfd

theorem Pc.Allowed.of_known
    {pc : Pc}
    (hopens : pc.opens = some fd)
    (hserves : pc.serves = none)
    (h : Known s fd) :
    pc.Allowed s := by
  constructor
  · intro fd' hfd'
    rw [hopens] at hfd'
    cases hfd'
    exact h
  · intro fd' hfd'
    rw [hserves] at hfd'
    cases hfd'

theorem Pc.Allowed.of_connected
    {pc : Pc}
    (hopens : pc.opens = none)
    (hserves : pc.serves = some fd)
    (h : Connected fd s.log) :
    pc.Allowed s := by
  constructor
  · intro fd' hfd'
    rw [hopens] at hfd'
    cases hfd'
  · intro fd' hfd'
    rw [hserves] at hfd'
    cases hfd'
    exact h

theorem Pc.Allowed.opened
    {i : Nat} {d : Dir}
    (h : Known s fd) :
    (Pc.opened i fd d).Allowed s := by
  cases d with
  | read => exact .of_known rfl rfl h
  | write => exact .of_none rfl rfl

theorem Pc.Allowed.closed
    {i : Nat} {d : Dir}
    (h : Connected fd s.log) :
    (Pc.closed i fd d).Allowed s := by
  cases d with
  | read => exact .of_connected rfl rfl h
  | write => exact .of_connected rfl rfl h

theorem Pc.Allowed.received
    {i : Nat} {r : RecvResult}
    (h : Connected fd s.log) :
    (Pc.received i fd r).Allowed s := by
  rcases Pc.received_cases i fd r with ⟨-, he⟩ | ⟨-, he⟩ | ⟨-, -, he⟩ <;> rw [he]
  · exact .of_connected rfl rfl h
  · exact .of_none rfl rfl
  · exact .of_connected rfl rfl h

/-- The handler calls back for a packet whose push is in the history. -/
theorem ConnectFirst.handled
    {u : Nat} {stack : Nat → UInt8} {ret : Int} {rq : Ringq} {d : PackData}
    {stream : EbStream} {e : EbEvent}
    (h : ConnectFirst s.log)
    (hdel : Delivers cfg s)
    (hpushed : ∀ u fd n d, .pushed u fd n d ∈ s.log → Connected fd s.log)
    (hpop : popPack (s.units u).rq stack = .ok (ret, rq, d))
    (hret : -1 < ret)
    (hstream : streamOf d cfg.udata = .ok stream) :
    ConnectFirst (s.log ++ .handled u d :: callback cfg (.worker u) e stream) := by
  rcases hdel.popped hpop with ⟨rfl, -⟩ | ⟨fd, n, _, hmem, -, ⟨r, -, hd⟩, -⟩
  · omega
  obtain ⟨hfd, -⟩ := streamOf_eq_ok (hd ▸ packed_len_bounds fd r) hstream
  have hlog : ConnectFirst (s.log ++ [.handled u d]) := h.append (by simp)
  have hall := hlog.append_callback cfg (c := .worker u) (e := e)
    (hfd.trans (hd ▸ packed_fd)) fun _ => (hpushed u fd n d hmem).append
  simpa using hall

/-- One move that waits for `EB_CONNECT`. -/
theorem ServedConnected.move
    (h : ServedConnected s)
    (hcb : cfg.callbacks .EB_CONNECT = true)
    (hdel : Delivers cfg s)
    (hboot : ∀ t, ¬ cfg.Runs t → s.pc t = .boot)
    (hgood : WaitsForConnect cfg s a)
    (hmove : Move cfg s a s') :
    ServedConnected s' := by
  have hkeep := h.keep hcb hmove
  have hpipe : ∀ {s₁ : Server}, s₁.pipe = s.pipe → ∀ i fd,
      fd ∈ (s₁.pipe i).items → fd ∈ (s.pipe i).items ∨ Known s₁ fd :=
    fun he i fd hfd => .inl (he ▸ hfd)
  have hidle : ∀ {t pc}, pc.opens = none → pc.serves = none →
      ∀ t', ((s.goto t pc).pc t').Allowed s :=
    fun ho hs => h.pcs_goto (.of_none ho hs)
  have hsame : ∀ {E : EventState}, E.ev = s.events.ev → KnownEvents s E := h.events_eq
  cases hmove with
  | arrived => exact hkeep (hpipe rfl) (hsame rfl) h.pcs h.pushed h.log
  | booted _ _ hop =>
      refine hkeep (hpipe rfl) (h.events_opened hop fun he => ?_) (hidle rfl rfl)
        h.pushed h.log
      rw [bootEvent_isClient] at he
      cases he
  | waited _ _ _ hcol =>
      exact hkeep (fun i fd hfd => .inl (by simpa using hfd)) (h.events_same hcol.content)
        (hidle rfl rfl) h.pushed h.log
  | drained => exact hkeep (hpipe rfl) (hsame rfl) (hidle rfl rfl) h.pushed h.log
  | ignored _ _ htaken _ =>
      exact hkeep (hpipe rfl) (h.events_same htaken.content) h.pcs h.pushed h.log
  | started _ hpc htaken hcall hstart =>
      refine hkeep (hpipe rfl) (h.events_same htaken.content) (h.pcs_goto ⟨?_, ?_⟩)
        h.pushed h.log
      · intro fd hfd
        rw [Pc.opens_start hstart] at hfd
        cases hfd
      · intro fd hfd
        obtain ⟨hclient, rfl⟩ := Pc.serves_start hcall hstart hfd
        exact h.taken hboot hgood hpc htaken hclient
  | writable _ hpc htaken hcall _ =>
      refine hkeep (hpipe rfl) (h.events_same htaken.content) h.pcs
        (h.pushed_append callback_thread_not_ofFactory)
        (h.log.append_callback cfg rfl fun _ => ?_)
      refine h.taken hboot hgood hpc htaken ?_
      simp [Event.isClient, Event.cb_of_callback hcall]
  | acceptFailed => exact hkeep (hpipe rfl) (hsame rfl) (hidle rfl rfl) h.pushed h.log
  | rejected =>
      exact hkeep (hpipe rfl) (hsame rfl) (hidle rfl rfl)
        (h.pushed_append (by simp [Note.ofFactory])) (h.log.append (by simp))
  | accepted =>
      exact hkeep (hpipe rfl) (hsame rfl) (hidle rfl rfl)
        (h.pushed_append (by simp [Note.ofFactory])) (h.log.append (by simp))
  | @handedOff t _ fd _ hpc =>
      refine hkeep (fun i fd' hfd' => ?_) (hsame rfl) (hidle rfl rfl) h.pushed h.log
      rcases mem_update_arrive hfd' with hold | ⟨-, rfl⟩
      · exact .inl hold
      · exact .inr (.inr ⟨t, by simp⟩)
  | handOffFailed => exact hkeep (hpipe rfl) (hsame rfl) (hidle rfl rfl) h.pushed h.log
  | announced =>
      exact hkeep (hpipe rfl) (hsame rfl) (hidle rfl rfl)
        (h.pushed_append callback_thread_not_ofFactory)
        (h.log.append_callback cfg rfl fun hne => absurd rfl hne)
  | counted => exact hkeep (hpipe rfl) (hsame rfl) (hidle rfl rfl) h.pushed h.log
  | pipeEmpty => exact hkeep (hpipe rfl) (hsame rfl) (hidle rfl rfl) h.pushed h.log
  | @pipeTaken t _ i fd rest _ _ hitems =>
      have hknown : Known s fd := h.pipe i fd (hitems ▸ List.mem_cons_self)
      exact hkeep (fun i' fd' hfd' => .inl (mem_update_leave hitems hfd')) (hsame rfl)
        (h.pcs_goto (.of_known rfl rfl hknown)) h.pushed h.log
  | exhausted => exact hkeep (hpipe rfl) (hsame rfl) (hidle rfl rfl) h.pushed h.log
  | @opened t _ d i fd p events _ hpc hop =>
      have hknown : Known s fd := (h.pcs t).opens fd (by rw [hpc]; rfl)
      exact hkeep (hpipe rfl) (h.events_opened hop fun _ => hknown)
        (h.pcs_goto (.opened hknown)) h.pushed h.log
  | @openFailed t _ d i fd p events _ hpc hop =>
      have hknown : Known s fd := (h.pcs t).opens fd (by rw [hpc]; rfl)
      exact hkeep (hpipe rfl) (h.events_opened hop fun _ => hknown)
        (h.pcs_goto (.of_known rfl rfl hknown)) h.pushed h.log
  | @undone t _ d i fd p events _ hpc hput =>
      have hknown : Known s fd := (h.pcs t).opens fd (by rw [hpc]; rfl)
      exact hkeep (hpipe rfl) (hsame hput.ev) (h.pcs_goto (.opened hknown)) h.pushed h.log
  | @received t env i fd _ hpc =>
      have hconn : Connected fd s.log := (h.pcs t).serves fd (by rw [hpc]; rfl)
      exact hkeep (hpipe rfl) (hsame rfl) (h.pcs_goto (.received hconn))
        (h.pushed_append (by simp [Note.ofFactory])) (h.log.append (by simp))
  | @closedNone t _ d i fd _ hpc =>
      have hconn : Connected fd s.log := (h.pcs t).serves fd (by rw [hpc]; rfl)
      exact hkeep (hpipe rfl) (hsame rfl) (h.pcs_goto (.closed hconn)) h.pushed h.log
  | @closed t _ d i fd p _ events _ hpc _ hcl =>
      have hconn : Connected fd s.log := (h.pcs t).serves fd (by rw [hpc]; rfl)
      exact hkeep (hpipe rfl) (hsame hcl.ev) (h.pcs_goto (.closed hconn)) h.pushed h.log
  | refused =>
      exact hkeep (hpipe rfl) (hsame rfl) (hidle rfl rfl)
        (h.pushed_append (by simp [Note.ofFactory])) (h.log.append (by simp))
  | @pushed t _ fd n d _ _ _ hpc =>
      have hconn : Connected fd s.log := (h.pcs t).serves fd (by rw [hpc]; rfl)
      refine hkeep (hpipe rfl) (hsame rfl) (hidle rfl rfl) (fun u fd' n' d' hmem => ?_)
        (h.log.append (by simp))
      rcases List.mem_append.mp hmem with hmem | hmem
      · exact h.pushed u fd' n' d' hmem
      · cases List.mem_singleton.mp hmem
        exact hconn
  | notified => exact hkeep (hpipe rfl) (hsame rfl) (hidle rfl rfl) h.pushed h.log
  | woke => exact hkeep (hpipe rfl) (hsame rfl) h.pcs h.pushed h.log
  | handled _ hpop hret hstream =>
      refine hkeep (hpipe rfl) (hsame rfl) h.pcs (fun u fd n d hmem => ?_)
        (h.log.handled hdel h.pushed hpop hret hstream)
      rcases List.mem_append.mp hmem with hmem | hmem
      · exact h.pushed u fd n d hmem
      · rcases List.mem_cons.mp hmem with he | hmem
        · cases he
        · cases eq_called_of_mem_callback hmem
  | emptied => exact hkeep (hpipe rfl) (hsame rfl) h.pcs h.pushed h.log

end Steps

/-- **`EB_CONNECT` comes first** in every run in which no event of a connection
is dispatched while the master is between writing its descriptor to the pipe
and calling `EB_CONNECT`. -/
theorem connect_comes_first
    {cfg : Cfg} {s : Server}
    (hconnect : cfg.callbacks .EB_CONNECT = true)
    (hreach : Reach (step cfg) (WaitsForConnect cfg) (ebSrvNew cfg) s) :
    ConnectFirst s.log := by
  have h : ServedConnected s := by
    refine hreach.invariant_of
      (J := fun s => Delivers cfg s ∧ ∀ t, ¬ cfg.Runs t → s.pc t = .boot)
      (fun s hr => ⟨delivers_of_reach hr, fun t ht => pc_boot_of_not_runs hr ht⟩)
      servedConnected_ebSrvNew ?_
    intro s a s' hJ _ h hgood hstep
    exact h.move hconnect hJ.1 hJ.2 hgood (step_move hstep)
  exact h.log

/-- A byte is received and passed on after `EB_CONNECT`. -/
theorem connect_comes_first_one_byte :
    ∃ s, Reach (step Small.cfg) (WaitsForConnect Small.cfg) Small.start s ∧
      passedFor 0 7 s.log = [(1, [65])] ∧ ConnectFirst s.log := by
  obtain ⟨s, hreach, hcheck⟩ := reach_of_endsIn (step Small.cfg)
    (WaitsForConnect Small.cfg) Small.start .disabled
    (Small.boot ++ Small.client 7 ++ Small.chunk 7 ++ [Small.worker])
    (fun s => decide (passedFor 0 7 s.log = [(1, [65])]))
    (by decide +kernel)
  exact ⟨s, hreach, of_decide_eq_true hcheck, connect_comes_first rfl hreach⟩

/-- The reactor registers the descriptor, receives a byte and the worker calls
`EB_RECV`, all between the master's write to the pipe and its `EB_CONNECT`. -/
theorem not_connect_comes_first :
    ¬ ∀ s, Reachable (step Small.cfg) Small.start s → ConnectFirst s.log := by
  intro hall
  obtain ⟨s, hreach, hcheck⟩ := reachable_of_endsIn (step Small.cfg) Small.start
    (Small.boot ++ Small.handOff 7 ++ Small.register ++ Small.chunk 7 ++
      [Small.worker])
    (fun s => calledFor .EB_RECV 7 s.log && !calledFor .EB_CONNECT 7 s.log)
    (by decide +kernel)
  simp only [Bool.and_eq_true, Bool.not_eq_true'] at hcheck
  obtain ⟨hrecv, hnone⟩ := hcheck
  obtain ⟨c, stream, hx, hfd⟩ := calledFor_iff.mp hrecv
  obtain ⟨past, future, heq, hp⟩ := Always.of_mem (hall s hreach) hx
  obtain ⟨fd, hfd', c', stream', hmem, hstream⟩ := hp _ _ _ rfl (by decide)
  have hconnect : calledFor .EB_CONNECT 7 s.log = true :=
    calledFor_iff.mpr ⟨c', stream', heq ▸ List.mem_append_left _ hmem,
      hstream.trans (hfd'.symm.trans hfd)⟩
  rw [hnone] at hconnect
  cases hconnect

end Ebot
