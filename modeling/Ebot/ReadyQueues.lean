import Ebot.Library.TailQueue
import Ebot.Faults

/-!
# The ready queues as they lie in memory

The queue of ready events of a base is a `TAILQ`: a header in the base, and in every
event a pointer to the next one and the address of the pointer to it.  The server works
on lists.  Here the queues are the links themselves, in one memory for the events of all
threads, and `event_read` and `event_write` zero an event whether it is linked or not.

While the close path removes only events that are not queued, the server on the links is
the server on lists.  Otherwise a wiped event leaves a queue that leads into another one
(`not_ready_queues_refine`); there the runs on lists end (`eventInit`).
-/

namespace Ebot

open Function EventState Transition TailQueue

/-- The headers in the bases, and the `event_entry` of every event. -/
abbrev ReadyLinks : Type := Links Tid Nat

namespace Linked

/-- `queued_event_readies`. -/
def queuedEventReadies (t : Tid) (q : ReadyLinks) (ev : Nat → SrvEvent) :
    Option Nat → ReadyLinks × (Nat → SrvEvent)
  | none => (q, ev)
  | some p =>
      if (ev p).queued then (q, ev)
      else (q.insertTail t p, update ev p { ev p with queued := true })

/-- One `if` in the loop of `ebot_loop`. -/
def queueReported (waits : Dir → Slots) (t : Tid) (reported : Bool) (d : Dir) (fd : Nat)
    (q : ReadyLinks) (ev : Nat → SrvEvent) :
    Except Stop (ReadyLinks × (Nat → SrvEvent)) := do
  if reported then
    let p ← (waits d).get fd
    .ok (queuedEventReadies t q ev p)
  else
    .ok (q, ev)

/-- The `for` loop of `ebot_loop` over the reports. -/
def ebotLoopCollect (waits : Dir → Slots) (t : Tid) (q : ReadyLinks)
    (ev : Nat → SrvEvent) :
    List Report → Except Stop (ReadyLinks × (Nat → SrvEvent))
  | [] => .ok (q, ev)
  | rep :: reps => do
      let (q, ev) ← queueReported waits t rep.events.epollin .read rep.fd q ev
      let (q, ev) ← queueReported waits t rep.events.epollout .write rep.fd q ev
      ebotLoopCollect waits t q ev reps

/-- One round of the loop in `dispatch_events` up to the callback: `TAILQ_FIRST` and
`TAILQ_REMOVE`. -/
def dispatchNext (t : Tid) (q : ReadyLinks) (ev : Nat → SrvEvent) :
    Except Stop (Option (Nat × ReadyLinks × (Nat → SrvEvent))) :=
  match q.first t with
  | none => .ok none
  | some p => do
      let q ← orFault (q.remove t p)
      .ok (some (p, q, update ev p { ev p with queued := false }))

end Linked

namespace Linked

/-- `mpool_get_with_lock`, then `event_read` or `event_write`, which zero the event and
its links whether it is queued or not, then `ebot_add_event`. -/
def getAdd (E : EventState) (q : ReadyLinks) (t : Tid) (ctl : Bool) (e : SrvEvent) :
    Except Stop (Option (Nat × Int) × EventState × ReadyLinks) := do
  let (o, pool) ← mpoolGet E.pool
  match o with
  | none => .ok (none, { E with pool }, q)
  | some p =>
      let ev := update E.ev p e
      let (ret, base) ← ebotAddEvent (.strict ctl) (E.base t) p (ev p)
      .ok (some (p, ret), { pool, ev, base := update E.base t base }, q.wipe p)

end Linked

/-- The server with its ready queues in memory; the lists of its bases stay empty. -/
structure LinkedServer where
  server : Server
  links : ReadyLinks

namespace Linked

section Threads

variable (cfg : Cfg) (L : LinkedServer) (t : Tid)

/-- `reactor_pool_exec` before its loop, and `eb_srv_start` for the master. -/
def reactorPoolExec (ctl : Bool) : Except Stop LinkedServer := do
  let (o, events, links) ← getAdd L.server.events L.links t ctl (bootEvent cfg t)
  match o with
  | none => .error (bootNull t)
  | some (_, ret) =>
      if ret < 0 then .error (bootAddFail cfg t)
      else .ok { server := { L.server with events }.goto t .idle, links }

/-- `ebot_loop` up to `dispatch_events`. -/
def ebotLoop (reports : List Report) : Except Stop LinkedServer := do
  require (L.server.pc t = .idle)
  require (reports.length ≤ (L.server.events.base t).epsz)
  require (reports.map Report.fd).Nodup
  require (reports.all (mayReport cfg L.server t))
  let (links, ev) ← ebotLoopCollect (L.server.events.base t).waits t L.links
    L.server.events.ev reports
  let backlog :=
    L.server.backlog.reportIf (decide (t = .master) && reported reports cfg.sfd)
  let pipe := fun i =>
    (L.server.pipe i).reportIf (decide (t = .reactor i) && reported reports (cfg.pipeFd i))
  let events := { L.server.events with ev }
  .ok { server := { L.server with events, backlog, pipe }.goto t .dispatch, links }

/-- The call of the callback of an event in `dispatch_events`, up to its first step. -/
def callCallback (s : Server) (e : SrvEvent) : Except Stop Server :=
  match e.callback, e.arg with
  | none, _ => .ok s
  | some .ebot_srv_accept, .srv => .ok (s.goto t .accept)
  | some .reactor_pool_pipe_callback, .reactor i => .ok (s.goto t (.pipeRead i))
  | some .reactor_pool_client_read_callback, .reactor i => .ok (s.goto t (.recv i e.fd))
  | some .reacto_pool_client_write_callback, .reactor _ =>
      .ok (s.note (callback cfg (.thread t) .EB_WRITE (ebStream (e.fd : Nat) cfg.udata)))
  | _, _ => .error .fault

/-- One round of `dispatch_events`, up to the start of the callback. -/
def dispatchEvents : Except Stop LinkedServer := do
  match ← dispatchNext t L.links L.server.events.ev with
  | none => .ok { L with server := L.server.goto t .idle }
  | some (p, links, ev) =>
      let events := { L.server.events with ev }
      (callCallback cfg t { L.server with events } (ev p)).map fun server => { server, links }

/-- The part of `reactor_pool_pipe_callback` for one direction, up to the
`mpool_put_with_lock`. -/
def pipeCallbackOpen (d : Dir) (i : Nat) (fd : Fd) (ctl : Bool) :
    Except Stop LinkedServer := do
  let (o, events, links) ← getAdd L.server.events L.links (.reactor i) ctl
    (clientEvent d fd i)
  let s := { L.server with events }
  match o with
  | none => .ok { server := s.goto t .dispatch, links }
  | some (p, ret) =>
      .ok { server := s.goto t (if ret < 0 then .undoing d i fd p else .opened i fd d), links }

/-- The next step of a thread; what is not listed does nothing to a ready queue. -/
def runThread (env : Env) : Except Stop LinkedServer :=
  match L.server.pc t with
  | .boot => reactorPoolExec cfg L t env.ctl
  | .dispatch => dispatchEvents cfg L t
  | .opening d i fd => pipeCallbackOpen L t d i fd env.ctl
  | _ => (Ebot.runThread cfg L.server t env).map fun server => { L with server }

end Threads

end Linked

/-- One step of the server on the links. -/
def linkedStep (cfg : Cfg) (L : LinkedServer) : Action → Except Stop LinkedServer
  | .wait t reports => do
      require (cfg.Runs t)
      Linked.ebotLoop cfg L t reports
  | .run t env => do
      require (cfg.Runs t)
      Linked.runThread cfg L t env
  | a => (step cfg L.server a).map fun server => { L with server }

/-- The server on the links after `eb_srv_new` and `eb_srv_listen`: `ebot_new` has
initialised the header of every base. -/
def linkedNew (cfg : Cfg) : LinkedServer :=
  { server := ebSrvNew cfg, links := .init }

/-- The close path removes only events whose flag is clear, and the kernel does not
refuse. -/
def LinkedServer.ClosesUnqueued (L : LinkedServer) (a : Action) : Prop :=
  RemovalsGranted L.server a ∧
    match a with
    | .run t _ =>
        match L.server.pc t with
        | .closing d i fd =>
            ∀ p ∈ L.server.events.slot (.reactor i) d fd, (L.server.events.ev p).queued = false
        | _ => True
    | _ => True

instance (L : LinkedServer) : DecidablePred L.ClosesUnqueued
  | .run t _ => by
      dsimp only [LinkedServer.ClosesUnqueued]
      generalize L.server.pc t = pc
      rcases pc <;> infer_instance
  | .arrive | .wait _ _ | .work _ _ =>
      inferInstanceAs (Decidable (RemovalsGranted L.server _ ∧ True))

/-! ## The links and the lists -/

/-- The links run through the lists of ready events; what is in a list carries the flag,
and is in no other list. -/
structure Strings (q : ReadyLinks) (readies : Tid → List Nat) (ev : Nat → SrvEvent) : Prop where
  chains : ∀ t, Chains q t (readies t)
  flagged : ∀ t, ∀ p ∈ readies t, (ev p).queued = true
  apart : ∀ t t', t' ≠ t → ∀ p ∈ readies t, p ∉ readies t'

namespace Strings

variable {q : ReadyLinks} {readies : Tid → List Nat} {ev : Nat → SrvEvent}
variable {t : Tid} {p : Nat} {e : SrvEvent}

theorem not_mem
    (h : Strings q readies ev)
    (hp : (ev p).queued = false) :
    ∀ t, p ∉ readies t := by
  intro t hmem
  rw [h.flagged t p hmem] at hp
  cases hp

/-- The flag of other events is free to change. -/
theorem flagged_update
    {readies' : Tid → List Nat}
    (h : Strings q readies ev)
    (hsub : ∀ t, ∀ x ∈ readies' t, x ∈ readies t ∨ x = p)
    (hp : (∃ t, p ∈ readies' t) → e.queued = true) :
    ∀ t, ∀ x ∈ readies' t, (update ev p e x).queued = true := by
  intro t x hx
  by_cases hxp : x = p
  · subst hxp
    rw [update_self]
    exact hp ⟨t, hx⟩
  · rw [update_of_ne hxp]
    exact h.flagged t x ((hsub t x hx).resolve_right hxp)

/-- An event is linked behind the others. -/
theorem insertTail
    (h : Strings q readies ev)
    (hp : (ev p).queued = false) :
    Strings (q.insertTail t p) (update readies t (readies t ++ [p]))
      (update ev p { ev p with queued := true }) := by
  have hout := h.not_mem hp
  refine ⟨fun t' => ?_, ?_, fun t₁ t₂ hne x hx => ?_⟩
  · by_cases ht : t' = t
    · subst ht
      rw [update_self]
      exact (h.chains t').insertTail (hout t')
    · rw [update_of_ne ht]
      exact (h.chains t).insertTail_other (h.chains t') ht (h.apart t t' ht) (hout t')
  · refine h.flagged_update (fun t' x hx => ?_) fun _ => rfl
    by_cases ht : t' = t
    · subst ht
      rw [update_self] at hx
      exact (List.mem_append.mp hx).imp_right List.mem_singleton.mp
    · rw [update_of_ne ht] at hx
      exact .inl hx
  · by_cases ht₁ : t₁ = t
    · subst ht₁
      rw [update_self] at hx
      rw [update_of_ne hne]
      rcases List.mem_append.mp hx with hx | hx
      · exact h.apart t₁ t₂ hne x hx
      · rw [List.mem_singleton.mp hx]
        exact hout t₂
    · rw [update_of_ne ht₁] at hx
      by_cases ht₂ : t₂ = t
      · subst ht₂
        rw [update_self]
        intro hmem
        rcases List.mem_append.mp hmem with hmem | hmem
        · exact h.apart t₁ t₂ hne x hx hmem
        · exact hout t₁ (List.mem_singleton.mp hmem ▸ hx)
      · rw [update_of_ne ht₂]
        exact h.apart t₁ t₂ hne x hx

/-- The first event of a queue is taken out. -/
theorem removeFirst
    {rest : List Nat}
    (h : Strings q readies ev)
    (ht : readies t = p :: rest) :
    ∃ q', q.remove t p = some q' ∧
      Strings q' (update readies t rest) (update ev p { ev p with queued := false }) := by
  have hsub : ∀ t', ∀ x ∈ update readies t rest t', x ∈ readies t' := by
    intro t' x hx
    by_cases ht' : t' = t
    · subst ht'
      rw [update_self] at hx
      rw [ht]
      exact List.mem_cons_of_mem _ hx
    · rwa [update_of_ne ht'] at hx
  have hown := h.chains t
  rw [ht] at hown
  obtain ⟨q', hq', hrest, hother⟩ := hown.removeFirst
  refine ⟨q', hq', fun t' => ?_, ?_, fun t₁ t₂ hne x hx hmem => ?_⟩
  · by_cases ht' : t' = t
    · subst ht'
      rw [update_self]
      exact hrest
    · rw [update_of_ne ht']
      refine hother t' _ ht' (fun x hx => h.apart t t' ht' x ?_) (h.chains t')
      rw [ht]
      exact List.mem_cons_of_mem _ hx
  · refine h.flagged_update (fun t' x hx => .inl (hsub t' x hx)) ?_
    rintro ⟨t', hmem⟩
    exfalso
    by_cases ht' : t' = t
    · subst ht'
      rw [update_self] at hmem
      exact (List.nodup_cons.mp hown.nodup).1 hmem
    · refine h.apart t t' ht' p (ht ▸ List.mem_cons_self) (hsub t' p hmem)
  · exact h.apart t₁ t₂ hne x (hsub t₁ x hx) (hsub t₂ x hmem)

/-- An event that is in no queue is filled in anew. -/
theorem wipe
    (h : Strings q readies ev)
    (hp : (ev p).queued = false) :
    Strings (q.wipe p) readies (update ev p e) := by
  have hout := h.not_mem hp
  refine ⟨fun t => (h.chains t).wipe (hout t), ?_, h.apart⟩
  refine h.flagged_update (fun _ _ hx => .inl hx) ?_
  rintro ⟨t, hmem⟩
  exact absurd hmem (hout t)

end Strings

/-! ## The server without its lists -/

/-- The base, its list of ready events forgotten. -/
def EbotBase.unlisted (eb : EbotBase) : EbotBase :=
  { eb with event_readies := [] }

/-- The shared events without the lists. -/
def EventState.unlisted (E : EventState) : EventState :=
  { E with base := fun t => (E.base t).unlisted }

/-- The server without them. -/
def Server.unlisted (s : Server) : Server :=
  { s with events := s.events.unlisted }

section Unlisted

variable {cfg : Cfg} {s : Server} {E : EventState} {eb base : EbotBase} {t : Tid} {env : Env}
variable {p fd : Nat} {d : Dir} {ctl : Bool}

theorem EbotBase.unlisted_waits
    (eb : EbotBase) :
    eb.unlisted.waits = eb.waits := by
  funext d
  cases d <;> rfl

theorem EbotBase.unlisted_epoll
    (eb : EbotBase) :
    eb.unlisted.epoll = eb.epoll :=
  rfl

/-- The lists forgotten after one base has changed. -/
theorem EventState.unlisted_update
    {pool : Mpool} {ev : Nat → SrvEvent} :
    EventState.unlisted { pool, ev, base := update E.base t base } =
      { pool, ev, base := update E.unlisted.base t base.unlisted } := by
  unfold EventState.unlisted
  congr 1
  funext t'
  by_cases ht : t' = t
  · subst ht
    simp only [update_self]
  · simp only [update_of_ne ht]

/-- Only the list of the base has changed, and flags. -/
theorem EventState.unlisted_requeued
    {ev : Nat → SrvEvent}
    (hbase : base.unlisted = (E.base t).unlisted) :
    EventState.unlisted { E with ev, base := update E.base t base } =
      { E.unlisted with ev } := by
  have hself : update E.unlisted.base t (E.base t).unlisted = E.unlisted.base :=
    update_eq_self t _
  rw [EventState.unlisted_update, hbase, hself]
  rfl

theorem growFor_unlisted
    (env : AddEnv) (eb : EbotBase) (fd : Nat) :
    Matched (fun x y => y = x.unlisted) (growFor env eb fd) (growFor env eb.unlisted fd) := by
  unfold growFor
  by_cases hfd : eb.wait_sz ≤ fd
  · rw [if_pos hfd, if_pos (show eb.unlisted.wait_sz ≤ fd from hfd)]
    refine Matched.map (R := fun x y => y = (x.1, x.2.unlisted)) ?_ ?_
    · unfold resizeEpollEvents
      exact .ite .error (.ite .error (.ite (.ok rfl) (.ite .error (.ite (.ok rfl) (.ok rfl)))))
    · rintro a b rfl
      rfl
  · rw [if_neg hfd, if_neg (show ¬ eb.unlisted.wait_sz ≤ fd from hfd)]
    exact .ok rfl

/-- `ebot_add_event` does not look at the ready queue. -/
theorem ebotAddEvent_unlisted
    {κ α : Type}
    (env : AddEnv) (eb : EbotBase) (p : Nat) (e : Event κ α) :
    Matched (fun x y => y = (x.1, x.2.unlisted)) (ebotAddEvent env eb p e)
      (ebotAddEvent env eb.unlisted p e) := by
  unfold ebotAddEvent
  by_cases hkides : ¬ (e.kide.read ∧ eb.kides.read ∨ e.kide.write ∧ eb.kides.write)
  · rw [if_pos hkides, if_pos (show ¬ (e.kide.read ∧ eb.unlisted.kides.read ∨
      e.kide.write ∧ eb.unlisted.kides.write) from hkides)]
    exact .ok rfl
  rw [if_neg hkides, if_neg (show ¬ ¬ (e.kide.read ∧ eb.unlisted.kides.read ∨
    e.kide.write ∧ eb.unlisted.kides.write) from hkides)]
  refine Matched.bind_same fun r _ => Matched.bind_same fun w _ => ?_
  dsimp only
  refine (growFor_unlisted env eb e.fd).bind ?_
  rintro eb₁ _ - rfl
  rw [EbotBase.unlisted_epoll]
  split
  · exact .ok rfl
  · exact Matched.bind_same fun rd _ => Matched.bind_same fun wr _ => .ok rfl

/-- `ebot_del_event` does not either. -/
theorem ebotDelEvent_unlisted
    {κ α : Type}
    (ctl : Bool) (eb : EbotBase) (e : Event κ α) :
    Matched (fun x y => y = (x.1, x.2.unlisted)) (ebotDelEvent ctl eb e)
      (ebotDelEvent ctl eb.unlisted e) := by
  unfold ebotDelEvent
  refine Matched.bind_same fun w _ => Matched.bind_same fun r _ => ?_
  dsimp only
  rw [EbotBase.unlisted_epoll]
  split
  · exact .ok rfl
  · exact Matched.bind_same fun rd _ => Matched.bind_same fun wr _ => .ok rfl

/-- `mpool_put` leaves the bases alone. -/
theorem put_unlisted
    (E : EventState) (p : Nat) :
    Matched (fun x y => y = x.unlisted) (E.put p) (E.unlisted.put p) :=
  Matched.bind_same fun _ _ => .ok rfl

theorem delPut_unlisted
    (E : EventState) (t : Tid) (ctl : Bool) (d : Dir) (fd : Nat) :
    Matched (fun x y => y = x.unlisted) (E.delPut t ctl d fd) (E.unlisted.delPut t ctl d fd) := by
  have hwaits : (E.unlisted.base t).waits = (E.base t).waits := EbotBase.unlisted_waits _
  unfold EventState.delPut
  rw [hwaits]
  refine Matched.bind_same fun o _ => ?_
  cases o with
  | none => exact .ok rfl
  | some p =>
      refine (ebotDelEvent_unlisted ctl (E.base t) (E.ev p)).bind ?_
      rintro ⟨ret, base⟩ _ - rfl
      dsimp only
      have hput := put_unlisted { E with base := update E.base t base } p
      rw [EventState.unlisted_update] at hput
      exact hput

theorem ebotSrvAccept_unlisted
    {o : Option Fd} :
    Matched (fun x y => y = x.unlisted) (ebotSrvAccept cfg s t o)
      (ebotSrvAccept cfg s.unlisted t o) := by
  cases o with
  | none => exact .ok rfl
  | some fd =>
      unfold ebotSrvAccept
      have hitems : s.unlisted.backlog.items = s.backlog.items := rfl
      dsimp only
      rw [hitems]
      cases s.backlog.items with
      | nil => exact .error
      | cons _ rest =>
          refine Matched.bind_same fun _ _ => ?_
          exact .ite (.ok rfl) (.ok rfl)

/-- What a thread does outside `dispatch_events` and the parts that get a slab does not
look at the ready queues. -/
theorem runThread_unlisted
    (hboot : s.pc t ≠ .boot)
    (hdispatch : s.pc t ≠ .dispatch)
    (hopening : ∀ d i fd, s.pc t ≠ .opening d i fd) :
    Matched (fun x y => y = x.unlisted) (runThread cfg s t env)
      (runThread cfg s.unlisted t env) := by
  have hsame : s.unlisted.pc t = s.pc t := rfl
  unfold runThread
  rw [hsame]
  cases hpc : s.pc t with
  | boot => exact absurd hpc hboot
  | dispatch => exact absurd hpc hdispatch
  | opening d i fd => exact absurd hpc (hopening d i fd)
  | idle => exact .error
  | accept => exact ebotSrvAccept_unlisted
  | handOff fd => exact .ok rfl
  | announce fd => exact .ok rfl
  | count => exact .ite .error (.ok rfl)
  | pipeRead i =>
      refine .ok ?_
      have hpipe : s.unlisted.pipe = s.pipe := rfl
      unfold reactorPoolPipeCallback
      rw [hpipe]
      cases (s.pipe i).items <;> rfl
  | undoing d i fd p =>
      refine (put_unlisted s.events p).bind ?_
      rintro E _ - rfl
      exact .ok rfl
  | recv i fd => exact .ok rfl
  | closing d i fd =>
      refine (delPut_unlisted s.events (.reactor i) env.ctl d fd).bind ?_
      rintro E _ - rfl
      exact .ok rfl
  | pushing fd n d =>
      refine Matched.bind_same fun o _ => ?_
      exact .ite (.ok rfl) (.ok rfl)
  | notify u => exact .ok rfl

/-- The workers have no ready queue. -/
theorem ebSrvFactoryExec_unlisted
    (cfg : Cfg) (s : Server) (u : Nat) (stack : Nat → UInt8) :
    Matched (fun x y => y = x.unlisted) (ebSrvFactoryExec cfg s u stack)
      (ebSrvFactoryExec cfg s.unlisted u stack) := by
  unfold ebSrvFactoryExec
  refine .ite (Matched.bind_same fun _ _ => .ok rfl) (Matched.bind_same fun o _ => ?_)
  exact .ite (Matched.bind_same fun stream _ => .ok rfl) (.ok rfl)

theorem unlisted_ebSrvNew
    (cfg : Cfg) :
    (ebSrvNew cfg).unlisted = ebSrvNew cfg := by
  unfold Server.unlisted EventState.unlisted ebSrvNew
  congr 2
  funext t
  cases t <;> rfl

end Unlisted

/-! ## The functions of a base -/

namespace Linked

variable {q : ReadyLinks} {readies : Tid → List Nat} {ev ev' : Nat → SrvEvent}
variable {eb eb' : EbotBase} {t : Tid}

/-- The base after reports were queued on the list, and the links after they were queued
there. -/
def Queues (readies : Tid → List Nat) (t : Tid) (eb : EbotBase)
    (x : EbotBase × (Nat → SrvEvent)) (y : ReadyLinks × (Nat → SrvEvent)) : Prop :=
  x.1.unlisted = eb.unlisted ∧ y.2 = x.2 ∧
    Strings y.1 (update readies t x.1.event_readies) x.2

/-- `queued_event_readies` does the same to the links as to the list. -/
theorem queuedEventReadies_queues
    (o : Option Nat)
    (h : Strings q (update readies t eb.event_readies) ev) :
    Queues readies t eb (Ebot.queuedEventReadies eb ev o).2 (queuedEventReadies t q ev o) := by
  cases o with
  | none => exact ⟨rfl, rfl, h⟩
  | some p =>
      unfold Ebot.queuedEventReadies queuedEventReadies
      dsimp only
      by_cases hp : (ev p).queued = true
      · rw [if_pos hp, if_pos hp]
        exact ⟨rfl, rfl, h⟩
      · rw [if_neg hp, if_neg hp]
        refine ⟨rfl, rfl, ?_⟩
        have hins := h.insertTail (t := t) (Bool.eq_false_iff.mpr hp)
        rwa [update_self, update_idem] at hins

/-- One `if` of the loop does. -/
theorem queueReported_queues
    (reported : Bool) (d : Dir) (fd : Nat)
    (h : Strings q (update readies t eb.event_readies) ev) :
    Matched (Queues readies t eb) (Ebot.queueReported reported d fd eb ev)
      (queueReported eb.waits t reported d fd q ev) := by
  unfold Ebot.queueReported queueReported
  refine .ite (Matched.bind_same fun o _ => ?_) (.ok ⟨rfl, rfl, h⟩)
  exact .ok (queuedEventReadies_queues o h)

/-- The loop over the reports does. -/
theorem ebotLoopCollect_queues
    (reports : List Report)
    (h : Strings q (update readies t eb.event_readies) ev) :
    Matched (Queues readies t eb) (Ebot.ebotLoopCollect eb ev reports)
      (ebotLoopCollect eb.waits t q ev reports) := by
  induction reports generalizing q eb ev with
  | nil => exact .ok ⟨rfl, rfl, h⟩
  | cons rep reports ih =>
      have hwaits : ∀ {eb₁ eb₂ : EbotBase}, eb₁.unlisted = eb₂.unlisted →
          eb₁.waits = eb₂.waits := by
        intro eb₁ eb₂ he
        rw [← eb₁.unlisted_waits, he, eb₂.unlisted_waits]
      refine (queueReported_queues rep.events.epollin .read rep.fd h).bind ?_
      rintro ⟨eb₁, ev₁⟩ ⟨q₁, _⟩ - ⟨he₁, rfl, h₁⟩
      rw [← hwaits he₁]
      refine (queueReported_queues rep.events.epollout .write rep.fd h₁).bind ?_
      rintro ⟨eb₂, ev₂⟩ ⟨q₂, _⟩ - ⟨he₂, rfl, h₂⟩
      rw [← hwaits he₂]
      refine (ih h₂).mono ?_
      rintro ⟨eb₃, ev₃⟩ ⟨q₃, _⟩ - ⟨he₃, hev, h₃⟩
      exact ⟨he₃.trans (he₂.trans he₁), hev, h₃⟩

/-- `dispatch_events` finds the same event through the links as at the head of the
list. -/
theorem dispatchNext_strings
    (eb : EbotBase)
    (h : Strings q readies ev)
    (heb : readies t = eb.event_readies) :
    match Ebot.dispatchNext eb ev with
    | none => dispatchNext t q ev = .ok none
    | some (p, eb', ev') => eb'.unlisted = eb.unlisted ∧
        ∃ q', dispatchNext t q ev = .ok (some (p, q', ev')) ∧
          Strings q' (update readies t eb'.event_readies) ev' := by
  have hfirst := (h.chains t).first
  rw [heb] at hfirst
  unfold Ebot.dispatchNext dispatchNext
  cases hready : eb.event_readies with
  | nil =>
      rw [hfirst, hready]
      rfl
  | cons p rest =>
      obtain ⟨q', hq', hstrings⟩ := h.removeFirst (heb.trans hready)
      rw [hfirst, hready]
      refine ⟨rfl, q', ?_, hstrings⟩
      refine bind_eq_ok.mpr ⟨q', ?_, rfl⟩
      rw [hq']
      rfl

end Linked

/-! ## Steps and runs -/

/-- The server on the links stands for the one on lists: its links run through the lists,
and all else is the same. -/
structure Stands (s : Server) (L : LinkedServer) : Prop where
  server : L.server = s.unlisted
  strings : Strings L.links s.events.readies s.events.ev

section Steps

variable {cfg : Cfg} {s s' : Server} {E E' : EventState} {q : ReadyLinks}
variable {t : Tid} {env : Env} {L : LinkedServer}

/-- The queues when one base changes. -/
theorem readies_update
    {pool : Mpool} {ev : Nat → SrvEvent} {base : EbotBase} :
    EventState.readies { pool, ev, base := update E.base t base } =
      update E.readies t base.event_readies := by
  funext t'
  by_cases ht : t' = t
  · subst ht
    simp [EventState.readies]
  · simp [EventState.readies, update_of_ne ht]

/-- `mpool_get`, `event_read` or `event_write`, and `ebot_add_event`, where the event in
a free slab is in no queue. -/
theorem Strings.getAdd
    {d : Dir} {e : SrvEvent}
    (ctl : Bool)
    (h : Strings q E.readies E.ev)
    (hfree : ∀ p, E.used p = false → (E.ev p).queued = false)
    (hd : e.IsFor d) :
    Matched (fun x y => ∃ q', y = (x.1, x.2.unlisted, q') ∧ Strings q' x.2.readies x.2.ev)
      (E.getAdd t ctl e) (Linked.getAdd E.unlisted q t ctl e) := by
  unfold EventState.getAdd Linked.getAdd
  refine Matched.bind_same ?_
  rintro ⟨o, pool⟩ hget
  cases o with
  | none => exact .ok ⟨q, rfl, h⟩
  | some p =>
      have hunq := hfree p (mpoolGet_some hget).2.1
      have hinit : eventInit E.ev p e = .ok (update E.ev p e) := by
        unfold eventInit
        rw [if_neg (by simp [hunq])]
      dsimp only
      rw [hinit, ok_bind]
      refine (ebotAddEvent_unlisted (.strict ctl) (E.base t) p _).bind ?_
      rintro ⟨ret, base⟩ _ hadd rfl
      refine .ok ⟨q.wipe p, by rw [EventState.unlisted_update]; rfl, ?_⟩
      dsimp only at hadd ⊢
      rw [update_self] at hadd
      have hready : base.event_readies = E.readies t := by
        rcases ebotAddEvent_strict hd hadd with ⟨-, rfl⟩ | ⟨-, hr, -⟩
        · rfl
        · exact hr
      rw [readies_update, hready, update_eq_self]
      exact h.wipe hunq

/-- The reports of one `epoll_wait`. -/
theorem Strings.collect
    (reports : List Report)
    (h : Strings q E.readies E.ev) :
    Matched (fun x y => { E.unlisted with ev := y.2 } = x.unlisted ∧ Strings y.1 x.readies x.ev)
      (E.collect t reports)
      (Linked.ebotLoopCollect (E.base t).waits t q E.ev reports) := by
  have hself : Strings q (update E.readies t (E.base t).event_readies) E.ev := by
    rw [show (E.base t).event_readies = E.readies t from rfl, update_eq_self]
    exact h
  have hcollect := Linked.ebotLoopCollect_queues reports hself
  unfold EventState.collect
  revert hcollect
  generalize Ebot.ebotLoopCollect (E.base t) E.ev reports = x
  generalize Linked.ebotLoopCollect (E.base t).waits t q E.ev reports = y
  intro hcollect
  cases hcollect with
  | error => exact .error
  | @ok a b hqueues =>
      obtain ⟨base, ev⟩ := a
      obtain ⟨q', _⟩ := b
      obtain ⟨hbase, rfl, hstrings⟩ := hqueues
      refine .ok ⟨(EventState.unlisted_requeued hbase).symm, ?_⟩
      rw [readies_update]
      exact hstrings

/-- `ebot_loop`. -/
theorem Stands.ebotLoop
    (reports : List Report)
    (h : Stands s L) :
    Matched Stands (ebotLoop cfg s t reports) (Linked.ebotLoop cfg L t reports) := by
  obtain ⟨server, links⟩ := L
  obtain ⟨rfl, hstrings⟩ := h
  unfold Ebot.ebotLoop Linked.ebotLoop
  refine Matched.bind_same fun _ _ => Matched.bind_same fun _ _ =>
    Matched.bind_same fun _ _ => Matched.bind_same fun _ _ => ?_
  have hwaits : (s.unlisted.events.base t).waits = (s.events.base t).waits :=
    EbotBase.unlisted_waits _
  dsimp only
  rw [hwaits]
  refine (hstrings.collect reports).bind ?_
  rintro events ⟨links, ev⟩ - ⟨he, hlinks⟩
  refine .ok ⟨?_, hlinks⟩
  dsimp only at he
  unfold Server.unlisted
  dsimp only [Server.goto]
  rw [← he]

/-- `dispatch_events` calls the callback of the event it has taken. -/
theorem dispatchEvents_eq :
    dispatchEvents cfg s t =
      match s.events.next t with
      | none => .ok (s.goto t .idle)
      | some (p, events) => Linked.callCallback cfg t { s with events } (events.ev p) := by
  unfold dispatchEvents
  cases s.events.next t with
  | none => rfl
  | some o => rfl

/-- Which callback is called does not depend on the ready queues. -/
theorem callCallback_unlisted
    (cfg : Cfg) (t : Tid) (s : Server) (e : SrvEvent) :
    Matched (fun x y => y = x.unlisted ∧ x.events = s.events) (Linked.callCallback cfg t s e)
      (Linked.callCallback cfg t s.unlisted e) := by
  unfold Linked.callCallback
  split <;> first | exact .ok ⟨rfl, rfl⟩ | exact .error

/-- `dispatch_events`. -/
theorem Stands.dispatchEvents
    (h : Stands s L) :
    Matched Stands (dispatchEvents cfg s t) (Linked.dispatchEvents cfg L t) := by
  obtain ⟨server, links⟩ := L
  obtain ⟨rfl, hstrings⟩ := h
  have hnext := Linked.dispatchNext_strings (s.events.base t) hstrings rfl
  rw [dispatchEvents_eq]
  unfold Linked.dispatchEvents EventState.next
  change Matched Stands _ ((Linked.dispatchNext t links s.events.ev) >>= _)
  cases hlist : Ebot.dispatchNext (s.events.base t) s.events.ev with
  | none =>
      rw [hlist] at hnext
      dsimp only at hnext
      rw [hnext]
      exact .ok ⟨rfl, hstrings⟩
  | some o =>
      obtain ⟨p, base, ev⟩ := o
      rw [hlist] at hnext
      obtain ⟨hbase, q, hq, hstrings'⟩ := hnext
      dsimp only
      rw [hq, ok_bind]
      dsimp only
      have hcall := callCallback_unlisted cfg t
        { s with events := { s.events with base := update s.events.base t base, ev } } (ev p)
      unfold Server.unlisted at hcall
      dsimp only at hcall
      rw [EventState.unlisted_requeued hbase] at hcall
      refine hcall.map_right fun s' _ _ ⟨he, hkeep⟩ => ⟨he, ?_⟩
      rw [hkeep]
      dsimp only
      rw [readies_update]
      exact hstrings'

/-- `reactor_pool_exec` and `eb_srv_start`. -/
theorem Stands.reactorPoolExec
    (ctl : Bool)
    (h : Stands s L)
    (hfree : ∀ p, s.events.used p = false → (s.events.ev p).queued = false) :
    Matched Stands (reactorPoolExec cfg s t ctl) (Linked.reactorPoolExec cfg L t ctl) := by
  obtain ⟨server, links⟩ := L
  obtain ⟨rfl, hstrings⟩ := h
  refine (hstrings.getAdd ctl hfree bootEvent_isFor).bind ?_
  rintro ⟨o, E⟩ _ - ⟨q, rfl, hlinks⟩
  cases o with
  | none => exact .error
  | some o => exact .ite .error (.ok ⟨rfl, hlinks⟩)

/-- Half of the pipe callback. -/
theorem Stands.pipeCallbackOpen
    (d : Dir) (i : Nat) (fd : Fd) (ctl : Bool)
    (h : Stands s L)
    (hfree : ∀ p, s.events.used p = false → (s.events.ev p).queued = false) :
    Matched Stands (pipeCallbackOpen s t d i fd ctl)
      (Linked.pipeCallbackOpen L t d i fd ctl) := by
  obtain ⟨server, links⟩ := L
  obtain ⟨rfl, hstrings⟩ := h
  refine (hstrings.getAdd ctl hfree clientEvent_isFor).bind ?_
  rintro ⟨o, E⟩ _ - ⟨q, rfl, hlinks⟩
  cases o with
  | none => exact .ok ⟨rfl, hlinks⟩
  | some o => exact .ok ⟨rfl, hlinks⟩

/-- A step that leaves flags and queues alone. -/
theorem Strings.same
    (h : Strings q E.readies E.ev)
    (hreadies : ∀ t, E'.readies t = E.readies t)
    (hev : E'.ev = E.ev) :
    Strings q E'.readies E'.ev := by
  rw [hev, funext hreadies]
  exact h

/-- No other step of a thread touches a queue or a flag. -/
theorem Move.keeps_queues
    (hmove : Move cfg s (.run t env) s')
    (hdispatch : s.pc t ≠ .dispatch)
    (hboot : s.pc t ≠ .boot)
    (hopening : ∀ d i fd, s.pc t ≠ .opening d i fd) :
    (∀ t', s'.events.readies t' = s.events.readies t') ∧ s'.events.ev = s.events.ev := by
  cases hmove with
  | booted _ hpc => exact absurd hpc hboot
  | drained _ hpc => exact absurd hpc hdispatch
  | ignored _ hpc => exact absurd hpc hdispatch
  | started _ hpc => exact absurd hpc hdispatch
  | writable _ hpc => exact absurd hpc hdispatch
  | exhausted _ hpc => exact absurd hpc (hopening _ _ _)
  | opened _ hpc => exact absurd hpc (hopening _ _ _)
  | openFailed _ hpc => exact absurd hpc (hopening _ _ _)
  | undone _ _ hback =>
      exact ⟨fun t' => congrArg (fun b => (b t').event_readies) hback.base, hback.ev⟩
  | closed _ _ _ hclosed => exact ⟨hclosed.readies, hclosed.ev⟩
  | _ => exact ⟨fun _ => rfl, rfl⟩

/-- The next step of a thread. -/
theorem Stands.runThread
    (env : Env)
    (h : Stands s L)
    (hfree : ∀ p, s.events.used p = false → (s.events.ev p).queued = false)
    (hrun : cfg.Runs t) :
    Matched Stands (runThread cfg s t env) (Linked.runThread cfg L t env) := by
  have hother : s.pc t ≠ .dispatch → s.pc t ≠ .boot → (∀ d i fd, s.pc t ≠ .opening d i fd) →
      Matched Stands (Ebot.runThread cfg s t env)
        ((Ebot.runThread cfg L.server t env).map fun server => { L with server }) := by
    intro hdispatch hboot hopening
    rw [h.server]
    refine (runThread_unlisted hboot hdispatch hopening).map_right fun s' _ hok he => ?_
    have hstep : step cfg s (.run t env) = .ok s' :=
      bind_eq_ok.mpr ⟨(), require_eq_ok.mpr hrun, hok⟩
    obtain ⟨hreadies, hev⟩ := (step_move hstep).keeps_queues hdispatch hboot hopening
    exact ⟨he, h.strings.same hreadies hev⟩
  have hpc : L.server.pc t = s.pc t := by rw [h.server]; rfl
  unfold Linked.runThread
  rw [hpc]
  cases hcase : s.pc t with
  | boot =>
      rw [Ebot.runThread, hcase]
      exact h.reactorPoolExec env.ctl hfree
  | dispatch =>
      rw [Ebot.runThread, hcase]
      exact h.dispatchEvents
  | opening d i fd =>
      rw [Ebot.runThread, hcase]
      exact h.pipeCallbackOpen d i fd env.ctl hfree
  | _ => exact hother (by rw [hcase]; simp) (by rw [hcase]; simp) (by rw [hcase]; simp)

/-- **One step.**  Where the event in a free slab is in no queue, the server on the links
takes the steps of the server on lists, and ends where that one ends. -/
theorem Stands.step
    (a : Action)
    (h : Stands s L)
    (hfree : ∀ p, s.events.used p = false → (s.events.ev p).queued = false) :
    Matched Stands (step cfg s a) (linkedStep cfg L a) := by
  cases a with
  | arrive => exact .ok ⟨by rw [h.server]; rfl, h.strings⟩
  | wait t reports => exact Matched.bind_same fun _ _ => h.ebotLoop reports
  | run t env => exact Matched.bind_same fun _ hrun => h.runThread env hfree (require_eq_ok.mp hrun)
  | work u stack =>
      unfold linkedStep
      rw [h.server]
      have hwork : Matched (fun x y => y = x.unlisted) (Ebot.step cfg s (.work u stack))
          (Ebot.step cfg s.unlisted (.work u stack)) :=
        Matched.bind_same fun _ _ => ebSrvFactoryExec_unlisted cfg s u stack
      refine hwork.map_right fun s' _ hok he => ⟨he, ?_⟩
      obtain ⟨_, -, hexec⟩ := bind_eq_ok.mp hok
      rw [ebSrvFactoryExec_events hexec]
      exact h.strings

theorem stands_new
    (cfg : Cfg) :
    Stands (ebSrvNew cfg) (linkedNew cfg) := by
  have hnil : ∀ t, (ebSrvNew cfg).events.readies t = [] := by
    intro t
    cases t <;> rfl
  refine ⟨(unlisted_ebSrvNew cfg).symm, fun t => ?_, fun t p hp => ?_, fun t t' _ p hp => ?_⟩
  · rw [hnil t]
    exact chains_init t
  · rw [hnil t] at hp
    cases hp
  · rw [hnil t] at hp
    cases hp

theorem Server.unlisted_slot
    (t : Tid) (d : Dir) (fd : Nat) :
    s.unlisted.events.slot t d fd = s.events.slot t d fd := by
  cases d <;> rfl

/-- What is removed with its flag clear is in no list. -/
theorem Stands.closesUnqueued
    {a : Action}
    (h : Stands s L)
    (hgood : L.ClosesUnqueued a) :
    ClosesUnqueued s a := by
  obtain ⟨server, links⟩ := L
  obtain ⟨rfl, hstrings⟩ := h
  obtain ⟨hgranted, hclosed⟩ := hgood
  cases a with
  | run t env =>
      have hpc : s.unlisted.pc t = s.pc t := rfl
      dsimp only at hclosed
      rw [hpc] at hclosed
      cases hcase : s.pc t with
      | closing d i fd =>
          simp only [RemovalsGranted, hpc, hcase, Server.unlisted_slot] at hgranted
          simp only [hcase, Server.unlisted_slot] at hclosed
          simp only [ClosesUnqueued, RemovalsGranted, hcase]
          exact ⟨hgranted, fun p hp => hstrings.not_mem (hclosed p hp) _⟩
      | _ => simp [ClosesUnqueued, RemovalsGranted, hcase]
  | _ => exact ⟨trivial, trivial⟩

end Steps

/-- **The ready queues are lists.**  In every run of the server on the links whose close
paths remove only events whose flag is clear, with the kernel's consent, it stands for a
state of the server on lists: the links of every thread run through its list of ready
events, and whatever is done next, both take the same step or end with the same error.  So
no `TAILQ` operation damages another queue or follows a pointer that is not there. -/
theorem ready_queues_refine
    {cfg : Cfg} {L : LinkedServer}
    (hreach : Reach (linkedStep cfg) LinkedServer.ClosesUnqueued (linkedNew cfg) L) :
    ∃ s, Reach (step cfg) ClosesUnqueued (ebSrvNew cfg) s ∧ L.server = s.unlisted ∧
      (∀ t, Chains L.links t (s.events.readies t)) ∧
      ∀ a, Matched Stands (step cfg s a) (linkedStep cfg L a) := by
  have hfree : ∀ {s}, Reach (step cfg) ClosesUnqueued (ebSrvNew cfg) s →
      ∀ p, s.events.used p = false → (s.events.ev p).queued = false :=
    fun hr _ hp => unqueued_of_free hr hp
  obtain ⟨s, hlists, hstands⟩ := hreach.matched Stands (stands_new cfg)
    (fun _ _ _ _ h hgood => h.closesUnqueued hgood) fun _ _ a hr h => h.step a (hfree hr)
  exact ⟨s, hlists, hstands.server, hstands.strings.chains,
    fun a => hstands.step a (hfree hlists)⟩

/-- The read event and the write event of a connection are linked behind each other. -/
theorem ready_queues_refine_two_events :
    ∃ (L : LinkedServer) (s : Server),
      Reach (linkedStep Small.cfg) LinkedServer.ClosesUnqueued (linkedNew Small.cfg) L ∧
      L.links.first (.reactor 0) = some 5 ∧ L.links.next 5 = some 4 ∧
      L.server = s.unlisted ∧ Chains L.links (.reactor 0) (s.events.readies (.reactor 0)) := by
  obtain ⟨L, hreach, hcheck⟩ := reach_of_endsIn (linkedStep Small.cfg)
    LinkedServer.ClosesUnqueued (linkedNew Small.cfg) .disabled
    (Small.boot ++ Small.client 7 ++ [.wait (.reactor 0) [Small.epollinout 7]])
    (fun L => decide (L.links.first (.reactor 0) = some 5) &&
      decide (L.links.next 5 = some 4))
    (by decide +kernel)
  simp only [Bool.and_eq_true, decide_eq_true_eq] at hcheck
  obtain ⟨s, -, hserver, hchains, -⟩ := ready_queues_refine hreach
  exact ⟨L, s, hreach, hcheck.1, hcheck.2, hserver, hchains _⟩

/-- The small server with a second reactor, the read end of whose pipe is 5. -/
def Small.twoReactors : Cfg :=
  { setting := ⟨8, 2, 1, 10⟩
    sfd := 3
    pipeFd := fun i => if i = 0 then 4 else 5
    opened := fun fd => decide (fd.val ≤ 5)
    callbacks := fun _ => true
    udata := 0
    sfd_opened := by decide
    pipe_opened := fun i _ => by split <;> decide }

/-- The second reactor takes a step. -/
def Small.second : Action := .run (.reactor 1) Small.env

/-- The first reactor closes 8 while its write event is queued, and both slabs go back to
the pool.  The second registers 7 in the slab of the write event, and queues it.  The first
then finds it at the head of its own queue. -/
def Small.strayRun : List Action :=
  [Small.reactor, Small.second, Small.master] ++ Small.client 8 ++ Small.handOff 7 ++
    Small.connect ++
    [.wait (.reactor 0) [Small.epollinout 8], Small.reactor, Small.recv .shutdown,
      Small.reactor, Small.reactor, Small.reactor, Small.reactor] ++
    [.wait (.reactor 1) [Small.epollin 5], Small.second, Small.second, Small.second,
      Small.second, Small.second, .wait (.reactor 1) [Small.epollin 7], Small.reactor]

/-- Without the condition the queues are no lists: a reactor is led to the event of a
connection that another reactor serves. -/
theorem not_ready_queues_refine :
    ¬ ∀ L, Reach (linkedStep Small.twoReactors) (fun L => RemovalsGranted L.server)
        (linkedNew Small.twoReactors) L →
      ∃ s, Reach (step Small.twoReactors) RemovalsGranted (ebSrvNew Small.twoReactors) s ∧
        L.server = s.unlisted := by
  intro hall
  obtain ⟨L, hreach, hcheck⟩ := reach_of_endsIn (linkedStep Small.twoReactors)
    (fun L => RemovalsGranted L.server) (linkedNew Small.twoReactors) .disabled
    Small.strayRun (fun L => decide (L.server.pc (.reactor 0) = .recv 1 7))
    (by decide +kernel)
  rw [decide_eq_true_eq] at hcheck
  obtain ⟨s, hlists, hserver⟩ := hall L hreach
  have hacts := (orderly_of_reach (fun _ _ h => h) hlists).acts (.reactor 0)
  have hpc : s.pc (.reactor 0) = .recv 1 7 := by
    rw [← hcheck, hserver]
    rfl
  rw [hpc] at hacts
  cases hacts

end Ebot
