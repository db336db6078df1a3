import Ebot.Server

/-!
# Everything one step can do

`Move` lists what a step of the server can do, one constructor for each
outcome.  Proofs about runs split the cases of `Move` and use the lemmas on
event states; none unfolds the step function.
-/

namespace Ebot

open Function EdgeSource EventState Transition

/-- Where the callbacks other than the write callback start. -/
def Pc.start (fd : Fd) : Callback → Arg → Option Pc
  | .ebot_srv_accept, .srv => some .accept
  | .reactor_pool_pipe_callback, .reactor i => some (.pipeRead i)
  | .reactor_pool_client_read_callback, .reactor i => some (.recv i fd)
  | _, _ => none

/-- Where the read callback goes on after `readn`. -/
theorem Pc.received_cases
    (i : Nat) (fd : Fd) (r : RecvResult) :
    readn r = -2 ∧ Pc.received i fd r = .closing .read i fd ∨
      readn r = -1 ∧ Pc.received i fd r = .dispatch ∨
      readn r ≠ -2 ∧ readn r ≠ -1 ∧
        Pc.received i fd r = .pushing fd (readn r) (packed fd r) := by
  by_cases hclose : readn r = -2
  · exact .inl ⟨hclose, if_pos hclose⟩
  · by_cases hfail : readn r = -1
    · exact .inr (.inl ⟨hfail, (if_neg hclose).trans (if_pos hfail)⟩)
    · exact .inr (.inr ⟨hclose, hfail, (if_neg hclose).trans (if_neg hfail)⟩)

/-- The slab a thread is about to put back. -/
def Pc.undoes : Pc → Option Nat
  | .undoing _ _ _ p => some p
  | _ => none

/-- A step from `s` by the move to the state named last. -/
inductive Move (cfg : Cfg) (s : Server) : Action → Server → Prop
  | arrived :
      Move cfg s .arrive { s with backlog := s.backlog.arrive () }
  | booted {t env p events} :
      cfg.Runs t → s.pc t = .boot →
      Opened s.events t .read (bootEvent cfg t) p 0 events →
      Move cfg s (.run t env) ({ s with events }.goto t .idle)
  | waited {t : Tid} {reports events} :
      cfg.Runs t → s.pc t = .idle →
      (∀ rep ∈ reports, mayReport cfg s t rep = true) →
      Collected s.events t reports events →
      Move cfg s (.wait t reports)
        ({ s with
            events
            backlog := s.backlog.reportIf
              (decide (t = Tid.master) && reported reports cfg.sfd)
            pipe := fun i => (s.pipe i).reportIf
              (decide (t = Tid.reactor i) && reported reports (cfg.pipeFd i)) }.goto t
          .dispatch)
  | drained {t env} :
      cfg.Runs t → s.pc t = .dispatch → s.events.readies t = [] →
      Move cfg s (.run t env) (s.goto t .idle)
  | ignored {t env p events} :
      cfg.Runs t → s.pc t = .dispatch → Taken s.events t p events →
      (events.ev p).callback = none →
      Move cfg s (.run t env) { s with events }
  | started {t env p events cb pc} :
      cfg.Runs t → s.pc t = .dispatch → Taken s.events t p events →
      (events.ev p).callback = some cb →
      Pc.start (events.ev p).fd cb (events.ev p).arg = some pc →
      Move cfg s (.run t env) ({ s with events }.goto t pc)
  | writable {t env p events i} :
      cfg.Runs t → s.pc t = .dispatch → Taken s.events t p events →
      (events.ev p).callback = some .reacto_pool_client_write_callback →
      (events.ev p).arg = .reactor i →
      Move cfg s (.run t env)
        ({ s with events }.note (callback cfg (.thread t) .EB_WRITE
          (ebStream ((events.ev p).fd : Nat) cfg.udata)))
  | acceptFailed {t env} :
      cfg.Runs t → s.pc t = .accept → env.accepted = none →
      Move cfg s (.run t env) (s.goto t .dispatch)
  | rejected {t env fd rest} :
      cfg.Runs t → s.pc t = .accept → env.accepted = some fd →
      s.backlog.items = () :: rest → s.isOpen fd = false →
      s.total_conns > cfg.setting.max_connections →
      Move cfg s (.run t env)
        (({ s with backlog := s.backlog.leave rest }.note [.rejected fd]).goto t
          .dispatch)
  | accepted {t env fd rest} :
      cfg.Runs t → s.pc t = .accept → env.accepted = some fd →
      s.backlog.items = () :: rest → s.isOpen fd = false →
      ¬ s.total_conns > cfg.setting.max_connections →
      Move cfg s (.run t env)
        (({ s with
            backlog := s.backlog.leave rest
            isOpen := update s.isOpen fd true }.note [.accepted fd]).goto t
          (.handOff fd))
  | handedOff {t env fd} :
      cfg.Runs t → s.pc t = .handOff fd → env.pipeOk = true →
      Move cfg s (.run t env)
        ({ s with
            pipe := update s.pipe (cfg.reactorOf fd)
              ((s.pipe (cfg.reactorOf fd)).arrive fd) }.goto t (.announce fd))
  | handOffFailed {t env fd} :
      cfg.Runs t → s.pc t = .handOff fd → env.pipeOk = false →
      Move cfg s (.run t env) (s.goto t (.announce fd))
  | announced {t env fd} :
      cfg.Runs t → s.pc t = .announce fd →
      Move cfg s (.run t env)
        ((s.note (callback cfg (.thread t) .EB_CONNECT
          (ebStream (fd : Nat) cfg.udata))).goto t .count)
  | counted {t env} :
      cfg.Runs t → s.pc t = .count → s.total_conns ≠ 2147483647 →
      Move cfg s (.run t env)
        ({ s with total_conns := s.total_conns + 1 }.goto t .dispatch)
  | pipeEmpty {t env i} :
      cfg.Runs t → s.pc t = .pipeRead i → (s.pipe i).items = [] →
      Move cfg s (.run t env) (s.goto t .dispatch)
  | pipeTaken {t env i fd rest} :
      cfg.Runs t → s.pc t = .pipeRead i → (s.pipe i).items = fd :: rest →
      Move cfg s (.run t env)
        ({ s with pipe := update s.pipe i ((s.pipe i).leave rest) }.goto t
          (.opening .read i fd))
  | exhausted {t env d i fd} :
      cfg.Runs t → s.pc t = .opening d i fd →
      Move cfg s (.run t env) (s.goto t .dispatch)
  | opened {t env d i fd p events} :
      cfg.Runs t → s.pc t = .opening d i fd →
      Opened s.events (.reactor i) d (clientEvent d fd i) p 0 events →
      Move cfg s (.run t env) ({ s with events }.goto t (.opened i fd d))
  | openFailed {t env d i fd p events} :
      cfg.Runs t → s.pc t = .opening d i fd →
      Opened s.events (.reactor i) d (clientEvent d fd i) p (-1) events →
      Move cfg s (.run t env) ({ s with events }.goto t (.undoing d i fd p))
  | undone {t env d i fd p events} :
      cfg.Runs t → s.pc t = .undoing d i fd p → PutBack s.events p events →
      Move cfg s (.run t env) ({ s with events }.goto t (.opened i fd d))
  | received {t env i fd} :
      cfg.Runs t → s.pc t = .recv i fd →
      Move cfg s (.run t env)
        ((s.note [.received fd (readn env.recv) (packed fd env.recv)]).goto t
          (.received i fd env.recv))
  | closedNone {t env d i fd} :
      cfg.Runs t → s.pc t = .closing d i fd →
      s.events.slot (.reactor i) d fd = none →
      Move cfg s (.run t env) (s.goto t (.closed i fd d))
  | closed {t env d i fd p granted events} :
      cfg.Runs t → s.pc t = .closing d i fd →
      s.events.slot (.reactor i) d fd = some p →
      Closed s.events (.reactor i) p granted events →
      (env.ctl = true → s.events.watched (.reactor i) (s.events.ev p).fd →
        granted = true) →
      Move cfg s (.run t env) ({ s with events }.goto t (.closed i fd d))
  | refused {t env fd n d ret rq} :
      cfg.Runs t → s.pc t = .pushing fd n d →
      pushPack (s.units (cfg.unitOf fd)).rq d = .ok (ret, rq) → ret < 0 →
      Move cfg s (.run t env)
        (((s.setUnit (cfg.unitOf fd) { s.units (cfg.unitOf fd) with rq }).note
            [.refused (cfg.unitOf fd) fd n d]).goto t .dispatch)
  | pushed {t env fd n d ret rq} :
      cfg.Runs t → s.pc t = .pushing fd n d →
      pushPack (s.units (cfg.unitOf fd)).rq d = .ok (ret, rq) → ¬ ret < 0 →
      Move cfg s (.run t env)
        (((s.setUnit (cfg.unitOf fd) { s.units (cfg.unitOf fd) with rq }).note
            [.pushed (cfg.unitOf fd) fd n d]).goto t (.notify (cfg.unitOf fd)))
  | notified {t env u} :
      cfg.Runs t → s.pc t = .notify u →
      Move cfg s (.run t env)
        ((s.setUnit u { s.units u with efd := (s.units u).efd + 1 }).goto t .dispatch)
  | woke {u stack} :
      u < cfg.num → (s.units u).waiting = true →
      Move cfg s (.work u stack)
        (s.setUnit u { s.units u with efd := 0, waiting := false })
  | handled {u stack ret rq d stream} :
      u < cfg.num → popPack (s.units u).rq stack = .ok (ret, rq, d) → -1 < ret →
      streamOf d cfg.udata = .ok stream →
      Move cfg s (.work u stack)
        ((s.setUnit u { s.units u with rq }).note
          (.handled u d :: callback cfg (.worker u)
            (if stream.buf_size = 0 then .EB_CLOSE else .EB_RECV) stream))
  | emptied {u stack ret rq d} :
      u < cfg.num → popPack (s.units u).rq stack = .ok (ret, rq, d) → ¬ -1 < ret →
      Move cfg s (.work u stack)
        (s.setUnit u { s.units u with rq, waiting := true })

section Inversion

variable {cfg : Cfg} {s s' : Server} {t : Tid} {env : Env}

theorem bootEvent_isFor : (bootEvent cfg t).IsFor .read := by
  cases t <;> rfl

theorem clientEvent_isFor
    {d : Dir} {fd : Fd} {i : Nat} :
    (clientEvent d fd i).IsFor d := by
  rfl

/-- An add answers 0 or -1. -/
theorem EventState.Opened.ret_of_neg
    {E E' : EventState} {d : Dir} {e : SrvEvent} {p : Nat} {ret : Int}
    (h : Opened E t d e p ret E')
    (hret : ret < 0) :
    ret = -1 := by
  rcases h.answer with h0 | h1
  · omega
  · exact h1

theorem EventState.Opened.ret_of_not_neg
    {E E' : EventState} {d : Dir} {e : SrvEvent} {p : Nat} {ret : Int}
    (h : Opened E t d e p ret E')
    (hret : ¬ ret < 0) :
    ret = 0 := by
  rcases h.answer with h0 | h1
  · exact h0
  · omega

theorem reactorPoolExec_move
    {ctl : Bool}
    (hrun : cfg.Runs t)
    (hpc : s.pc t = .boot)
    (h : reactorPoolExec cfg s t ctl = .ok s') :
    Move cfg s (.run t env) s' := by
  unfold reactorPoolExec at h
  obtain ⟨⟨o, events⟩, hget, h⟩ := bind_eq_ok.mp h
  cases o with
  | none => cases h
  | some o =>
      obtain ⟨p, ret⟩ := o
      have hopened := getAdd_some bootEvent_isFor hget
      dsimp only at h
      split at h
      · cases h
      · rename_i hret
        cases h
        obtain rfl := hopened.ret_of_not_neg hret
        exact .booted hrun hpc hopened

theorem ebotLoop_move
    {reports : List Report}
    (hrun : cfg.Runs t)
    (h : ebotLoop cfg s t reports = .ok s') :
    Move cfg s (.wait t reports) s' := by
  unfold ebotLoop at h
  obtain ⟨_, hpc, h⟩ := bind_eq_ok.mp h
  obtain ⟨_, -, h⟩ := bind_eq_ok.mp h
  obtain ⟨_, -, h⟩ := bind_eq_ok.mp h
  obtain ⟨_, hmay, h⟩ := bind_eq_ok.mp h
  obtain ⟨events, hcollect, h⟩ := bind_eq_ok.mp h
  rw [require_eq_ok] at hpc hmay
  cases h
  exact .waited hrun hpc (List.all_eq_true.mp hmay) (collect_collected hcollect)

theorem dispatchEvents_move
    (hrun : cfg.Runs t)
    (hpc : s.pc t = .dispatch)
    (h : dispatchEvents cfg s t = .ok s') :
    Move cfg s (.run t env) s' := by
  unfold dispatchEvents at h
  split at h
  · rename_i hnext
    cases h
    exact .drained hrun hpc (next_none hnext)
  · rename_i p events hnext
    have htaken := next_some hnext
    dsimp only at h
    split at h
    · rename_i hcb
      cases h
      exact .ignored hrun hpc htaken hcb
    · rename_i hcb harg
      cases h
      exact .started hrun hpc htaken hcb (by rw [harg]; rfl)
    · rename_i hcb harg
      cases h
      exact .started hrun hpc htaken hcb (by rw [harg]; rfl)
    · rename_i hcb harg
      cases h
      exact .started hrun hpc htaken hcb (by rw [harg]; rfl)
    · rename_i hcb harg
      cases h
      exact .writable hrun hpc htaken hcb harg
    · cases h

theorem ebotSrvAccept_move
    (hrun : cfg.Runs t)
    (hpc : s.pc t = .accept)
    (h : ebotSrvAccept cfg s t env.accepted = .ok s') :
    Move cfg s (.run t env) s' := by
  unfold ebotSrvAccept at h
  split at h
  · rename_i hnone
    cases h
    exact .acceptFailed hrun hpc hnone
  · rename_i fd hfd
    split at h
    · cases h
    · rename_i hitems
      obtain ⟨_, hopen, h⟩ := bind_eq_ok.mp h
      rw [require_eq_ok] at hopen
      dsimp only at h
      split at h
      · rename_i hlimit
        cases h
        exact .rejected hrun hpc hfd hitems hopen hlimit
      · rename_i hlimit
        cases h
        exact .accepted hrun hpc hfd hitems hopen hlimit

theorem acceptHandOff_move
    {fd : Fd}
    (hrun : cfg.Runs t)
    (hpc : s.pc t = .handOff fd) :
    Move cfg s (.run t env) (acceptHandOff cfg s t fd env.pipeOk) := by
  unfold acceptHandOff
  cases hok : env.pipeOk with
  | true => exact .handedOff hrun hpc hok
  | false => exact .handOffFailed hrun hpc hok

theorem pipeCallback_move
    {i : Nat}
    (hrun : cfg.Runs t)
    (hpc : s.pc t = .pipeRead i) :
    Move cfg s (.run t env) (reactorPoolPipeCallback s t i) := by
  unfold reactorPoolPipeCallback
  split
  · rename_i hitems
    exact .pipeEmpty hrun hpc hitems
  · rename_i hitems
    exact .pipeTaken hrun hpc hitems

theorem pipeCallbackOpen_move
    {d : Dir} {i : Nat} {fd : Fd} {ctl : Bool}
    (hrun : cfg.Runs t)
    (hpc : s.pc t = .opening d i fd)
    (h : pipeCallbackOpen s t d i fd ctl = .ok s') :
    Move cfg s (.run t env) s' := by
  unfold pipeCallbackOpen at h
  obtain ⟨⟨o, events⟩, hget, h⟩ := bind_eq_ok.mp h
  cases o with
  | none =>
      cases h
      cases getAdd_none hget
      exact .exhausted hrun hpc
  | some o =>
      obtain ⟨p, ret⟩ := o
      have hopened := getAdd_some clientEvent_isFor hget
      cases h
      by_cases hret : ret < 0
      · rw [if_pos hret]
        obtain rfl := hopened.ret_of_neg hret
        exact .openFailed hrun hpc hopened
      · rw [if_neg hret]
        obtain rfl := hopened.ret_of_not_neg hret
        exact .opened hrun hpc hopened

theorem pipeCallbackUndo_move
    {d : Dir} {i : Nat} {fd : Fd} {p : Nat}
    (hrun : cfg.Runs t)
    (hpc : s.pc t = .undoing d i fd p)
    (h : pipeCallbackUndo s t d i fd p = .ok s') :
    Move cfg s (.run t env) s' := by
  unfold pipeCallbackUndo at h
  obtain ⟨events, hput, h⟩ := bind_eq_ok.mp h
  cases h
  exact .undone hrun hpc (put_putBack hput)

theorem clientReadClose_move
    {d : Dir} {i : Nat} {fd : Fd}
    (hrun : cfg.Runs t)
    (hpc : s.pc t = .closing d i fd)
    (h : clientReadClose s t d i fd env.ctl = .ok s') :
    Move cfg s (.run t env) s' := by
  unfold clientReadClose at h
  obtain ⟨events, hdel, h⟩ := bind_eq_ok.mp h
  cases h
  rcases delPut_cases hdel with ⟨hslot, rfl⟩ | ⟨p, granted, hslot, hclosed, hgrant⟩
  · exact .closedNone hrun hpc hslot
  · exact .closed hrun hpc hslot hclosed hgrant

theorem clientReadPush_move
    {fd : Fd} {n : Int} {d : PackData}
    (hrun : cfg.Runs t)
    (hpc : s.pc t = .pushing fd n d)
    (h : clientReadPush cfg s t fd n d = .ok s') :
    Move cfg s (.run t env) s' := by
  unfold clientReadPush at h
  obtain ⟨⟨ret, rq⟩, hpush, h⟩ := bind_eq_ok.mp h
  dsimp only at h
  split at h
  · rename_i hret
    cases h
    exact .refused hrun hpc hpush hret
  · rename_i hret
    cases h
    exact .pushed hrun hpc hpush hret

theorem runThread_move
    (hrun : cfg.Runs t)
    (h : runThread cfg s t env = .ok s') :
    Move cfg s (.run t env) s' := by
  unfold runThread at h
  cases hpc : s.pc t with
  | boot =>
      rw [hpc] at h
      exact reactorPoolExec_move hrun hpc h
  | idle =>
      rw [hpc] at h
      cases h
  | dispatch =>
      rw [hpc] at h
      exact dispatchEvents_move hrun hpc h
  | accept =>
      rw [hpc] at h
      exact ebotSrvAccept_move hrun hpc h
  | handOff fd =>
      rw [hpc] at h
      cases h
      exact acceptHandOff_move hrun hpc
  | announce fd =>
      rw [hpc] at h
      cases h
      exact .announced hrun hpc
  | count =>
      rw [hpc] at h
      dsimp only [acceptCount] at h
      split at h
      · cases h
      · rename_i hlimit
        cases h
        exact .counted hrun hpc hlimit
  | pipeRead i =>
      rw [hpc] at h
      cases h
      exact pipeCallback_move hrun hpc
  | opening d i fd =>
      rw [hpc] at h
      exact pipeCallbackOpen_move hrun hpc h
  | undoing d i fd p =>
      rw [hpc] at h
      exact pipeCallbackUndo_move hrun hpc h
  | recv i fd =>
      rw [hpc] at h
      cases h
      exact .received hrun hpc
  | closing d i fd =>
      rw [hpc] at h
      exact clientReadClose_move hrun hpc h
  | pushing fd n d =>
      rw [hpc] at h
      exact clientReadPush_move hrun hpc h
  | notify u =>
      rw [hpc] at h
      cases h
      exact .notified hrun hpc

theorem ebSrvFactoryExec_move
    {u : Nat} {stack : Nat → UInt8}
    (hu : u < cfg.num)
    (h : ebSrvFactoryExec cfg s u stack = .ok s') :
    Move cfg s (.work u stack) s' := by
  unfold ebSrvFactoryExec at h
  dsimp only at h
  split at h
  · rename_i hwaiting
    obtain ⟨_, -, h⟩ := bind_eq_ok.mp h
    cases h
    exact .woke hu hwaiting
  · obtain ⟨⟨ret, rq, d⟩, hpop, h⟩ := bind_eq_ok.mp h
    dsimp only at h
    split at h
    · rename_i hret
      obtain ⟨stream, hstream, h⟩ := bind_eq_ok.mp h
      cases h
      exact .handled hu hpop hret hstream
    · rename_i hret
      cases h
      exact .emptied hu hpop hret

/-- **Inversion of a step.** -/
theorem step_move
    {a : Action}
    (h : step cfg s a = .ok s') :
    Move cfg s a s' := by
  cases a with
  | arrive =>
      cases h
      exact .arrived
  | wait t reports =>
      obtain ⟨_, hrun, h⟩ := bind_eq_ok.mp h
      exact ebotLoop_move (require_eq_ok.mp hrun) h
  | run t env =>
      obtain ⟨_, hrun, h⟩ := bind_eq_ok.mp h
      exact runThread_move (require_eq_ok.mp hrun) h
  | work u stack =>
      obtain ⟨_, hu, h⟩ := bind_eq_ok.mp h
      exact ebSrvFactoryExec_move (require_eq_ok.mp hu) h

end Inversion

section Threads

variable {cfg : Cfg} {s s' : Server} {a : Action}

/-- What holds of where every thread is holds after one of them has moved. -/
theorem Server.forall_pc_goto
    {P : Tid → Pc → Prop} {t : Tid} {pc : Pc}
    (h : ∀ t', t' ≠ t → P t' (s.pc t'))
    (hpc : P t pc) :
    ∀ t', P t' ((s.goto t pc).pc t') := by
  intro t'
  by_cases ht : t' = t
  · subst ht
    simpa using hpc
  · simpa [update_of_ne ht] using h t' ht

/-- What a function says of where a thread is stays when a thread goes to a place
of which it says the same. -/
theorem Server.apply_pc_goto
    {β : Type} {s₁ : Server} {t : Tid} {pc₀ pc : Pc}
    (f : Pc → β)
    (t' : Tid)
    (hold : s.pc t = pc₀)
    (hpcs : s₁.pc = s.pc)
    (hpc : f pc = f pc₀) :
    f ((s₁.goto t pc).pc t') = f (s.pc t') := by
  by_cases ht : t' = t
  · subst ht
    rw [Server.goto_pc_self, hold, hpc]
  · rw [Server.goto_pc, update_of_ne ht, hpcs]

/-- The thread that makes a move. -/
def Action.thread : Action → Option Tid
  | .wait t _ => some t
  | .run t _ => some t
  | _ => none

/-- Only threads that exist make moves. -/
theorem Move.runs
    {t : Tid}
    (h : Move cfg s a s')
    (ht : a.thread = some t) :
    cfg.Runs t := by
  cases h <;> cases ht <;> assumption

/-- A move leaves the other threads where they are. -/
theorem Move.pc_other
    {t : Tid}
    (h : Move cfg s a s')
    (ht : a.thread ≠ some t) :
    s'.pc t = s.pc t := by
  have hne : ∀ {t'}, some t' ≠ some t → t ≠ t' := fun h he => h (he ▸ rfl)
  cases h <;> first | rfl | exact update_of_ne (hne ht) _ _

/-- A move only appends to the history. -/
theorem Move.log_append
    (h : Move cfg s a s') :
    ∃ notes, s'.log = s.log ++ notes := by
  cases h <;> first | exact ⟨[], (List.append_nil _).symm⟩ | exact ⟨_, rfl⟩

/-- The thread is before its `epoll_wait`. -/
def Pc.waits : Pc → Bool
  | .boot | .idle => true
  | .dispatch | .accept | .handOff _ | .announce _ | .count | .pipeRead _
  | .opening _ _ _ | .undoing _ _ _ _ | .recv _ _ | .closing _ _ _ | .pushing _ _ _
  | .notify _ => false

theorem Pc.waits_iff
    {pc : Pc} :
    pc.waits = true ↔ pc = .idle ∨ pc = .boot := by
  cases pc <;> simp [Pc.waits]

theorem Pc.waits_start
    {fd : Fd} {cb : Callback} {arg : Arg} {pc : Pc}
    (h : Pc.start fd cb arg = some pc) :
    pc.waits = false := by
  cases cb <;> cases arg <;> cases h <;> rfl

theorem Pc.waits_opened
    {i : Nat} {fd : Fd} {d : Dir} :
    (Pc.opened i fd d).waits = false := by
  cases d <;> rfl

theorem Pc.waits_closed
    {i : Nat} {fd : Fd} {d : Dir} :
    (Pc.closed i fd d).waits = false := by
  cases d <;> rfl

theorem Pc.waits_received
    {i : Nat} {fd : Fd} {r : RecvResult} :
    (Pc.received i fd r).waits = false := by
  rcases Pc.received_cases i fd r with ⟨-, h⟩ | ⟨-, h⟩ | ⟨-, -, h⟩ <;> rw [h] <;> rfl

/-- The descriptor whose edges wake the thread. -/
def Cfg.sourceFd (cfg : Cfg) : Tid → Fd
  | .master => cfg.sfd
  | .reactor i => cfg.pipeFd i

/-- A report for the source of a thread asks for its read event. -/
theorem reports_read_of_reported
    {t : Tid} {reports : List Report}
    (hmay : ∀ rep ∈ reports, mayReport cfg s t rep = true)
    (hrep : reported reports (cfg.sourceFd t) = true) :
    ∃ rep ∈ reports,
      rep.fd = (cfg.sourceFd t : Nat) ∧ rep.events.reports .read = true := by
  obtain ⟨rep, hmem, hfd⟩ := List.any_eq_true.mp hrep
  have hfd' : rep.fd = (cfg.sourceFd t : Nat) := by simpa using hfd
  refine ⟨rep, hmem, hfd', ?_⟩
  have hallowed := hmay rep hmem
  unfold mayReport at hallowed
  split at hallowed
  · cases hallowed
  · cases t with
    | master =>
        simp only [hfd', Cfg.sourceFd, bne_self_eq_false, Bool.false_or,
          Bool.and_eq_true] at hallowed
        exact hallowed.2.1
    | reactor i =>
        simp only [hfd', Cfg.sourceFd, bne_self_eq_false, Bool.false_or,
          Bool.and_eq_true] at hallowed
        exact hallowed.2.1

/-- Threads that do not exist never start. -/
theorem pc_boot_of_not_runs
    {good : Server → Action → Prop} {t : Tid}
    (hreach : Reach (step cfg) good (ebSrvNew cfg) s)
    (ht : ¬ cfg.Runs t) :
    s.pc t = .boot := by
  refine hreach.invariant (I := fun s => s.pc t = .boot) rfl ?_
  intro s a s' hpc _ hstep
  have hmove := step_move hstep
  rw [hmove.pc_other fun ha => ht (hmove.runs ha)]
  exact hpc

end Threads

/-! ## A small server

One reactor, one unit, eight slabs, at most ten connections.  The lists of
moves below are the runs that the modules on top use as instances. -/

namespace Small

/-- Descriptor 3 listens, 4 is the read end of the pipe. -/
def cfg : Cfg :=
  { setting := ⟨8, 1, 1, 10⟩
    sfd := 3
    pipeFd := fun _ => 4
    opened := fun fd => decide (fd.val ≤ 4)
    callbacks := fun _ => true
    udata := 0
    sfd_opened := by decide
    pipe_opened := fun _ _ => by decide }

/-- Its start. -/
def start : Server := ebSrvNew cfg

/-- `recv` took one byte. -/
def oneByte : RecvResult := .bytes [65] (by decide) (by decide)

/-- Nothing special happens. -/
def env : Env := ⟨true, none, true, .wouldBlock⟩

/-- The master takes a step. -/
def master : Action := .run .master env

/-- The reactor takes a step. -/
def reactor : Action := .run (.reactor 0) env

/-- The worker runs its handler. -/
def worker : Action := .work 0 fun _ => 0

/-- `accept` answers with the descriptor. -/
def accept (fd : Fd) : Action := .run .master { env with accepted := some fd }

/-- `recv` gives this answer. -/
def recv (r : RecvResult) : Action := .run (.reactor 0) { env with recv := r }

/-- `EPOLLIN` for a descriptor. -/
def epollin (fd : Nat) : Report := ⟨fd, true, false, false⟩

/-- `EPOLLIN` and `EPOLLOUT` for a descriptor. -/
def epollinout (fd : Nat) : Report := ⟨fd, true, true, false⟩

/-- Both threads add their own event. -/
def boot : List Action := [reactor, master]

/-- A client arrives and its connection is accepted and handed off; the master
has not yet called `EB_CONNECT`. -/
def handOff (fd : Fd) : List Action :=
  [.arrive, .wait .master [epollin 3], master, accept fd, master]

/-- `EB_CONNECT`, `total_conns++`, and back to `epoll_wait`. -/
def connect : List Action := [master, master, master]

/-- The reactor takes a descriptor from its pipe and registers it. -/
def register : List Action :=
  [.wait (.reactor 0) [epollin 4], reactor, reactor, reactor, reactor, reactor]

/-- The reactor receives a byte and pushes it. -/
def chunk (fd : Nat) : List Action :=
  [.wait (.reactor 0) [epollin fd], reactor, recv oneByte, reactor, reactor, reactor]

/-- The reactor sees the peer's close, removes both events, and pushes the
notice. -/
def peerClose (fd : Nat) : List Action :=
  [.wait (.reactor 0) [epollin fd], reactor, recv .shutdown, reactor, reactor,
    reactor, reactor, reactor]

/-- A connection is accepted, announced and registered. -/
def client (fd : Fd) : List Action := handOff fd ++ connect ++ register

end Small

end Ebot
